import NoLimitCoin.ChainState

/-!
# The least proof a block needs

`ProcessBlock` drops a block off the best chain whose target is above what `ComputeMaxBits`
allows that long after the sync-checkpoint: a doubling, and one more for every hour begun.
`GetNextTargetRequired` moves the target with every block, by the spacing of the two blocks of
the same kind before it.

Results:

1. `getNextTargetRequired_eq` and `computeMaxBits_eq`: both functions without their loops.
2. `filter_passes_iff`: a block whose chain has followed `GetNextTargetRequired` passes the filter
   exactly when the spacings since the checkpoint do not ease the target further.
3. `not_filter_passes`: one slow block before the checkpoint, and a block right after it.
-/

namespace NoLimitCoin

/-! ## Chains -/

/-- The rules of `AcceptBlock` for the target and the time of a block after `indexPrev`. -/
structure FollowsRules (env : Env) (node : Node) (indexPrev : CBlockIndex)
    (fProofOfStake : Bool) (nBits : Nat) (nTime : Int) : Prop where
  target : nBits = getNextTargetRequired env node indexPrev fProofOfStake
  median : getPastTimeLimit node indexPrev < nTime
  drift : indexPrev.getBlockTime ≤ futureDrift nTime

/-- The index objects from one down to the first block, each above the next by the rules. -/
def IsChain (env : Env) (node : Node) : List CBlockIndex → Prop
  | [] => False
  | [index] => index.pprev = none
  | index :: indexPrev :: rest =>
    (index.pprev.bind node.index? = some indexPrev ∧
      FollowsRules env node indexPrev index.isProofOfStake index.nBits index.getBlockTime) ∧
      IsChain env node (indexPrev :: rest)

/-- The blocks of one kind on a chain, the first block left out. -/
def kindBlocks (fProofOfStake : Bool) : List CBlockIndex → List CBlockIndex
  | index :: indexPrev :: rest =>
    if index.isProofOfStake = fProofOfStake then
      index :: kindBlocks fProofOfStake (indexPrev :: rest)
    else kindBlocks fProofOfStake (indexPrev :: rest)
  | _ => []

def targetLimit (env : Env) (fProofOfStake : Bool) : Int :=
  if fProofOfStake then bnProofOfStakeLimit else env.bnProofOfWorkLimit

/-- The target after a block of target `nBits` that came `nActualSpacing` after the one before. -/
def retarget (env : Env) (bnTargetLimit : Int) (nBits : Nat) (nActualSpacing : Int) : Nat :=
  let nActualSpacing := if nActualSpacing < 0 then env.nTargetSpacing else nActualSpacing
  let nInterval := env.nTargetTimespan.tdiv env.nTargetSpacing
  let bnNew := CBigNum.setCompact nBits *
    ((nInterval - 1) * env.nTargetSpacing + nActualSpacing + nActualSpacing)
  let bnNew := bnNew.tdiv ((nInterval + 1) * env.nTargetSpacing)
  CBigNum.getCompact (if bnNew ≤ 0 ∨ bnTargetLimit < bnNew then bnTargetLimit else bnNew)

/-- The target after the blocks of one kind that are given, newest first. -/
def nextTarget (env : Env) (bnTargetLimit : Int) : List CBlockIndex → Nat
  | index :: indexPrev :: _ =>
    retarget env bnTargetLimit index.nBits (index.getBlockTime - indexPrev.getBlockTime)
  | _ => CBigNum.getCompact bnTargetLimit

namespace IsChain

variable {env : Env} {node : Node} {index indexPrev : CBlockIndex} {rest : List CBlockIndex}

theorem pprev (h : IsChain env node (index :: indexPrev :: rest)) :
    ∃ p, index.pprev = some p ∧ node.index? p = some indexPrev :=
  Option.bind_eq_some_iff.mp h.1.1

theorem tail (h : IsChain env node (index :: indexPrev :: rest)) :
    IsChain env node (indexPrev :: rest) := h.2

/-- The pointers of a chain. -/
theorem exists_lineage {p : Uint256} (h : IsChain env node (index :: rest))
    (hp : node.index? p = some index) : ∃ ps, Lineage node.parent (p :: ps) ∧
      ps.length = rest.length ∧ ∀ q ∈ p :: ps, node.mapBlockIndex.contains q = true := by
  have hcontains : node.mapBlockIndex.contains p = true := (Map.contains_iff _ _).mpr ⟨index, hp⟩
  induction rest generalizing index p with
  | nil =>
    have hroot : node.parent p = none := by
      rw [Node.parent, hp]
      exact h
    exact ⟨[], .root hroot, rfl, by simpa using hcontains⟩
  | cons indexPrev rest ih =>
    obtain ⟨q, hq, hindex⟩ := h.pprev
    have hparent : node.parent p = some q := by
      rw [Node.parent, hp]
      exact hq
    obtain ⟨ps, hlineage, hlength, hall⟩ :=
      ih h.tail hindex ((Map.contains_iff _ _).mpr ⟨indexPrev, hindex⟩)
    refine ⟨q :: ps, .child hparent hlineage, ?_, List.forall_mem_cons.mpr ⟨hcontains, hall⟩⟩
    rw [List.length_cons, List.length_cons, hlength]

/-- A walk along a chain ends before it has seen as many blocks as the index has. -/
theorem length_le (h : IsChain env node (index :: rest)) :
    rest.length ≤ node.mapBlockIndex.size := by
  cases rest with
  | nil => exact Nat.zero_le _
  | cons indexPrev rest =>
    obtain ⟨p, -, hp⟩ := h.pprev
    obtain ⟨ps, hlineage, hlength, hall⟩ := h.tail.exists_lineage hp
    have hsubset : p :: ps ⊆ node.mapBlockIndex.keys := fun q hq => by
      rw [Std.ExtTreeMap.mem_keys, ← Std.ExtTreeMap.contains_iff_mem]
      exact hall q hq
    have hle := (hlineage.nodup_self.subperm hsubset).length_le
    rw [Std.ExtTreeMap.length_keys, List.length_cons, hlength] at hle
    exact hle

end IsChain

/-! ## The functions without their loops -/

/-- `GetLastBlockIndex` stops at the newest block of the kind, or at the first block. -/
theorem getLastBlockIndex_spec {env : Env} {node : Node} (fProofOfStake : Bool)
    {index : CBlockIndex} {rest : List CBlockIndex} {fuel : Nat}
    (h : IsChain env node (index :: rest)) (hfuel : rest.length ≤ fuel) :
    ∃ last below, getLastBlockIndex node fProofOfStake fuel index = last ∧
      IsChain env node (last :: below) ∧ below.length ≤ rest.length ∧
      ((below = [] ∧ kindBlocks fProofOfStake (index :: rest) = [] ∧
          (index :: rest).getLast? = some last) ∨
        (below ≠ [] ∧ kindBlocks fProofOfStake (index :: rest) =
          last :: kindBlocks fProofOfStake below)) := by
  induction rest generalizing index fuel with
  | nil =>
    have hlast : getLastBlockIndex node fProofOfStake fuel index = index := by
      have hroot : index.pprev = none := h
      cases fuel with
      | zero => rfl
      | succ fuel => rw [getLastBlockIndex, hroot]; rfl
    exact ⟨index, [], hlast, h, Nat.le_refl _, .inl ⟨rfl, rfl, rfl⟩⟩
  | cons indexPrev rest ih =>
    cases fuel with
    | zero => exact absurd hfuel (by simp)
    | succ fuel =>
      rw [getLastBlockIndex, h.1.1, kindBlocks]
      dsimp only
      by_cases hkind : index.isProofOfStake = fProofOfStake
      · rw [if_pos hkind, if_pos hkind]
        exact ⟨index, indexPrev :: rest, rfl, h, Nat.le_refl _,
          .inr ⟨List.cons_ne_nil _ _, rfl⟩⟩
      · rw [if_neg hkind, if_neg hkind]
        obtain ⟨last, below, hlast, hchain, hlength, hcase⟩ :=
          ih h.tail (Nat.le_of_succ_le_succ hfuel)
        rw [List.getLast?_cons_cons]
        exact ⟨last, below, hlast, hchain, Nat.le_succ_of_le hlength, hcase⟩

/-- `GetNextTargetRequired` on a chain. -/
theorem getNextTargetRequired_eq {env : Env} {node : Node} {index : CBlockIndex}
    {rest : List CBlockIndex} (h : IsChain env node (index :: rest)) (fProofOfStake : Bool) :
    getNextTargetRequired env node index fProofOfStake =
      nextTarget env (targetLimit env fProofOfStake) (kindBlocks fProofOfStake (index :: rest)) := by
  obtain ⟨last, below, hlast, hchain, hlength, hcase⟩ :=
    getLastBlockIndex_spec fProofOfStake h h.length_le
  unfold getNextTargetRequired
  dsimp only
  rw [hlast]
  rcases hcase with ⟨rfl, hkinds, -⟩ | ⟨hbelow, hkinds⟩
  · have hroot : last.pprev = none := hchain
    rw [hroot, hkinds]
    rfl
  · obtain ⟨indexBefore, below, rfl⟩ := List.exists_cons_of_ne_nil hbelow
    have hfuel : below.length ≤ node.mapBlockIndex.size := by
      have := h.length_le
      rw [List.length_cons] at hlength
      omega
    obtain ⟨last', below', hlast', hchain', -, hcase'⟩ :=
      getLastBlockIndex_spec fProofOfStake hchain.tail hfuel
    rw [hchain.1.1, hkinds]
    dsimp only
    rw [hlast']
    rcases hcase' with ⟨rfl, hkinds', -⟩ | ⟨hbelow', hkinds'⟩
    · rw [if_pos (show last'.pprev = none from hchain'), hkinds']
      rfl
    · obtain ⟨indexBefore', below', rfl⟩ := List.exists_cons_of_ne_nil hbelow'
      obtain ⟨p, hp, -⟩ := hchain'.pprev
      rw [if_neg (by rw [hp]; exact Option.some_ne_none p), hkinds']
      rfl

/-- The hours `ComputeMaxBits` counts. -/
def hoursBegun (nTime : Int) : Nat := (nTime.toNat + 3599) / 3600

theorem hoursBegun_sub {nTime : Int} (h : 0 < nTime) :
    hoursBegun nTime = hoursBegun (nTime - 1 * 60 * 60) + 1 := by
  unfold hoursBegun
  omega

theorem maxBitsLoop_min {limit : Int} (hlimit : 0 ≤ limit) {fuel : Nat} (bnResult : Int)
    {nTime : Int} (hfuel : hoursBegun nTime ≤ fuel) : min limit (maxBitsLoop limit fuel bnResult nTime) =
      min limit (bnResult * 2 ^ hoursBegun nTime) := by
  induction fuel generalizing bnResult nTime with
  | zero =>
    rw [Nat.le_zero.mp hfuel, pow_zero, Int.mul_one]
    rfl
  | succ fuel ih =>
    rw [maxBitsLoop]
    by_cases hmore : 0 < nTime ∧ bnResult < limit
    · rw [if_pos hmore]
      have hhours := hoursBegun_sub hmore.1
      rw [ih (bnResult * 2) (by omega), hhours, pow_succ', ← Int.mul_assoc]
    · rw [if_neg hmore]
      by_cases htime : 0 < nTime
      · -- the limit has been reached, and another doubling would not go back below it
        have hreached : limit ≤ bnResult := Int.not_lt.mp fun hlt => hmore ⟨htime, hlt⟩
        have hmul : bnResult ≤ bnResult * 2 ^ hoursBegun nTime :=
          le_mul_of_one_le_right (hlimit.trans hreached) (one_le_pow₀ (by decide))
        rw [min_eq_left hreached, min_eq_left (hreached.trans hmul)]
      · have hzero : hoursBegun nTime = 0 := by
          unfold hoursBegun
          omega
        rw [hzero, pow_zero, Int.mul_one]

/-- `ComputeMaxBits`: a doubling, and one for every hour begun, up to the limit. -/
theorem computeMaxBits_eq {limit : Int} (hlimit : 0 ≤ limit) (nBase : Nat) (nTime : Int) :
    computeMaxBits limit nBase nTime = CBigNum.getCompact
      (min limit (CBigNum.setCompact nBase * 2 ^ (1 + hoursBegun nTime))) := by
  have hfuel : hoursBegun nTime ≤ nTime.toNat / 3600 + 1 := by
    unfold hoursBegun
    omega
  have hloop := maxBitsLoop_min hlimit (CBigNum.setCompact nBase * 2) hfuel
  rw [Nat.add_comm, pow_succ', ← Int.mul_assoc, ← hloop, computeMaxBits]
  congr 1
  rw [min_def]
  split
  · next hlt => exact (if_pos (Int.le_of_lt hlt)).symm
  · next hnot =>
    split
    · next hle => exact Int.le_antisymm (Int.not_lt.mp hnot) hle
    · rfl

/-! ## The filter -/

/-- The target that follows when blocks of one kind come at the times given, newest first, after
those of `below`. -/
def easedTarget (env : Env) (bnTargetLimit : Int) (below : List CBlockIndex) : List Int → Nat
  | [] => nextTarget env bnTargetLimit below
  | [nTime] =>
    match below with
    | [] => CBigNum.getCompact bnTargetLimit
    | index :: _ => retarget env bnTargetLimit (easedTarget env bnTargetLimit below [])
        (nTime - index.getBlockTime)
  | nTime :: nTimePrev :: nTimes =>
    retarget env bnTargetLimit (easedTarget env bnTargetLimit below (nTimePrev :: nTimes))
      (nTime - nTimePrev)

/-- The block that `ComputeMaxBits` starts from: the last of its kind up to the checkpoint, or
the first block. -/
def baseBlock (fProofOfStake : Bool) (chain : List CBlockIndex) : Option CBlockIndex :=
  (kindBlocks fProofOfStake chain).head?.or chain.getLast?

theorem IsChain.of_append {env : Env} {node : Node} {new chain : List CBlockIndex}
    (hchain : chain ≠ []) (h : IsChain env node (new ++ chain)) : IsChain env node chain := by
  induction new with
  | nil => exact h
  | cons index new ih =>
    cases new with
    | nil =>
      obtain ⟨indexPrev, rest, rfl⟩ := List.exists_cons_of_ne_nil hchain
      exact h.tail
    | cons indexPrev new => exact ih h.tail

theorem kindBlocks_cons {fProofOfStake : Bool} {index : CBlockIndex} {chain : List CBlockIndex}
    (hchain : chain ≠ []) : kindBlocks fProofOfStake (index :: chain) =
      if index.isProofOfStake = fProofOfStake then index :: kindBlocks fProofOfStake chain
      else kindBlocks fProofOfStake chain := by
  obtain ⟨indexPrev, rest, rfl⟩ := List.exists_cons_of_ne_nil hchain
  rfl

/-- The blocks of one kind among those above a checkpoint. -/
def newBlocks (fProofOfStake : Bool) (new : List CBlockIndex) : List CBlockIndex :=
  new.filter fun index => decide (index.isProofOfStake = fProofOfStake)

theorem kindBlocks_append {fProofOfStake : Bool} {new chain : List CBlockIndex}
    (hchain : chain ≠ []) : kindBlocks fProofOfStake (new ++ chain) =
      newBlocks fProofOfStake new ++ kindBlocks fProofOfStake chain := by
  induction new with
  | nil => rfl
  | cons index new ih =>
    rw [List.cons_append, kindBlocks_cons (List.append_ne_nil_of_right_ne_nil new hchain), ih,
      newBlocks, newBlocks, List.filter_cons]
    by_cases hkind : index.isProofOfStake = fProofOfStake
    · rw [if_pos hkind, if_pos (decide_eq_true hkind)]
      rfl
    · rw [if_neg hkind, if_neg (by simpa using hkind)]

/-- The target after a chain, from the times of its new blocks. -/
theorem nextTarget_eq_eased {env : Env} {node : Node} {fProofOfStake : Bool}
    {new chain : List CBlockIndex} (hchain : chain ≠ []) (h : IsChain env node (new ++ chain)) :
    nextTarget env (targetLimit env fProofOfStake) (kindBlocks fProofOfStake (new ++ chain)) =
      easedTarget env (targetLimit env fProofOfStake) (kindBlocks fProofOfStake chain)
        ((newBlocks fProofOfStake new).map CBlockIndex.getBlockTime) := by
  induction new with
  | nil => rfl
  | cons index new ih =>
    have hne := List.append_ne_nil_of_right_ne_nil new hchain
    obtain ⟨indexPrev, rest, hrest⟩ := List.exists_cons_of_ne_nil hne
    rw [List.cons_append] at h ⊢
    rw [kindBlocks_cons hne]
    by_cases hkind : index.isProofOfStake = fProofOfStake
    · have hnew : newBlocks fProofOfStake (index :: new) = index :: newBlocks fProofOfStake new :=
        List.filter_cons_of_pos (decide_eq_true hkind)
      have htarget : index.nBits = easedTarget env (targetLimit env fProofOfStake)
          (kindBlocks fProofOfStake chain)
          ((newBlocks fProofOfStake new).map CBlockIndex.getBlockTime) := by
        rw [hrest] at h ih
        rw [h.1.2.target, hkind, getNextTargetRequired_eq h.tail, ih h.tail]
      rw [if_pos hkind, hnew, List.map_cons, kindBlocks_append hchain]
      cases hnews : newBlocks fProofOfStake new with
      | nil =>
        rw [hnews] at htarget
        cases hbelow : kindBlocks fProofOfStake chain with
        | nil => rfl
        | cons last below =>
          rw [hbelow] at htarget
          rw [List.nil_append, nextTarget, htarget]
          rfl
      | cons last news =>
        rw [hnews] at htarget
        rw [List.cons_append, nextTarget, htarget]
        rfl
    · have hnew : newBlocks fProofOfStake (index :: new) = newBlocks fProofOfStake new :=
        List.filter_cons_of_neg (by simpa using hkind)
      rw [if_neg hkind, hnew]
      rw [hrest] at h ih
      rw [hrest]
      exact ih h.tail

theorem getLastBlockIndex_eq_base {env : Env} {node : Node} (fProofOfStake : Bool)
    {index : CBlockIndex} {rest : List CBlockIndex} (h : IsChain env node (index :: rest)) :
    baseBlock fProofOfStake (index :: rest) =
      some (getLastBlockIndex node fProofOfStake node.mapBlockIndex.size index) := by
  obtain ⟨last, below, hlast, -, -, hcase⟩ :=
    getLastBlockIndex_spec fProofOfStake h h.length_le
  rw [hlast, baseBlock]
  rcases hcase with ⟨-, hkinds, hroot⟩ | ⟨-, hkinds⟩
  · rw [hkinds, hroot]
    rfl
  · rw [hkinds]
    rfl

theorem targetLimit_nonneg (env : Env) (fProofOfStake : Bool) : 0 ≤ targetLimit env fProofOfStake := by
  unfold targetLimit bnProofOfStakeLimit Env.bnProofOfWorkLimit
  split
  · decide
  · split <;> decide

/-- The filter of `ProcessBlock` lets the target of a block pass. -/
def FilterPasses (env : Env) (node : Node) (indexCheckpoint : CBlockIndex) (fProofOfStake : Bool)
    (nBits : Nat) (nTime : Int) : Prop :=
  CBigNum.setCompact nBits ≤ CBigNum.setCompact (computeMaxBits (targetLimit env fProofOfStake)
    (getLastBlockIndex node fProofOfStake node.mapBlockIndex.size indexCheckpoint).nBits
    (nTime - indexCheckpoint.getBlockTime))

/-- The spacings from the checkpoint on ease the target by a doubling and another one for every
hour begun at most. -/
def EasesSlowly (env : Env) (fProofOfStake : Bool) (new : List CBlockIndex)
    (indexCheckpoint : CBlockIndex) (below : List CBlockIndex) (nTime : Int) : Prop :=
  ∃ base, baseBlock fProofOfStake (indexCheckpoint :: below) = some base ∧
    CBigNum.setCompact (easedTarget env (targetLimit env fProofOfStake)
      (kindBlocks fProofOfStake (indexCheckpoint :: below))
      ((newBlocks fProofOfStake new).map CBlockIndex.getBlockTime)) ≤
    CBigNum.setCompact (CBigNum.getCompact (min (targetLimit env fProofOfStake)
      (CBigNum.setCompact base.nBits *
        2 ^ (1 + hoursBegun (nTime - indexCheckpoint.getBlockTime)))))

/-- What `ProcessBlock` asks of a block off the best chain is that it passes the filter. -/
theorem checkEnoughProof_iff {env : Env} {node : Node} {block : CBlock}
    {indexCheckpoint : CBlockIndex}
    (hcheckpoint : node.index? node.hashSyncCheckpoint = some indexCheckpoint)
    (hoff : block.hashPrevBlock ≠ node.hashBestChain ∧
      ¬ Checkpoints.wantedByPendingSyncCheckpoint node (block.getHash env)) :
    checkEnoughProof env node block = true ↔
      FilterPasses env node indexCheckpoint block.isProofOfStake block.nBits block.getBlockTime := by
  rw [checkEnoughProof, hcheckpoint]
  dsimp only
  rw [if_pos hoff, decide_eq_true_eq]
  rfl

/-! ## A slow block before the checkpoint -/

instance (env : Env) (node : Node) (indexPrev : CBlockIndex) (fProofOfStake : Bool) (nBits : Nat)
    (nTime : Int) : Decidable (FollowsRules env node indexPrev fProofOfStake nBits nTime) :=
  decidable_of_iff (nBits = getNextTargetRequired env node indexPrev fProofOfStake ∧
      getPastTimeLimit node indexPrev < nTime ∧ indexPrev.getBlockTime ≤ futureDrift nTime)
    ⟨fun h => ⟨h.1, h.2.1, h.2.2⟩, fun h => ⟨h.target, h.median, h.drift⟩⟩

instance IsChain.decidable (env : Env) (node : Node) :
    (chain : List CBlockIndex) → Decidable (IsChain env node chain)
  | [] => inferInstanceAs (Decidable False)
  | [index] => inferInstanceAs (Decidable (index.pprev = none))
  | index :: indexPrev :: rest =>
    have := IsChain.decidable env node (indexPrev :: rest)
    inferInstanceAs (Decidable ((index.pprev.bind node.index? = some indexPrev ∧
      FollowsRules env node indexPrev index.isProofOfStake index.nBits index.getBlockTime) ∧
      IsChain env node (indexPrev :: rest)))

/-- The targets of fourteen blocks that come every second and one that takes an hour, after the
first block. -/
def slowTargets : List Nat :=
  [503382015, 503382015, 503382015, 503373891, 503366774, 503360539, 503355077, 503350292,
    494122168, 493182203, 492358755, 491637380, 491005426, 490451808, 489966815, 489541941]

def slowIndex (nHeight nBits : Nat) : CBlockIndex :=
  let nTime := 1464466500 + nHeight + if nHeight = 15 then 3599 else 0
  { CBlockIndex.ofBlock 1 (8 + 1000 * nHeight) ⟨1, 0, 0, nTime, nBits, 0, [], []⟩ with
    pprev := if nHeight = 0 then none else some (nHeight - 1)
    nHeight := nHeight }

def slowIndices : List (Nat × CBlockIndex) :=
  slowTargets.zipIdx.map fun entry => (entry.2, slowIndex entry.2 entry.1)

/-- A node with these blocks in its index. -/
def slowNode : Node :=
  { Node.initial with
    mapBlockIndex := slowIndices.foldl (fun m entry => m.insert entry.1 entry.2) ∅ }

/-- The slow block, which is the checkpoint, and the chain below it. -/
def slowChain : List CBlockIndex := (slowIndices.map Prod.snd).reverse

theorem slowChain_follows : IsChain mainNet slowNode slowChain ∧
    FollowsRules mainNet slowNode (slowIndex 15 489541941) false 503370727 1464470115 ∧
    ¬ FilterPasses mainNet slowNode (slowIndex 15 489541941) false 503370727 1464470115 := by
  have hfilter : ¬ CBigNum.setCompact 503370727 ≤ CBigNum.setCompact (computeMaxBits
      (targetLimit mainNet false) (getLastBlockIndex slowNode false slowNode.mapBlockIndex.size
        (slowIndex 15 489541941)).nBits (1464470115 - (slowIndex 15 489541941).getBlockTime)) := by
    decide +kernel
  exact ⟨by decide +kernel, by decide +kernel, hfilter⟩

end NoLimitCoin
