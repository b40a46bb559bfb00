import NoLimitCoin.Merkle
import NoLimitCoin.Reads

/-!
# Merkle branches

`GetMerkleBranch` reads the siblings of a transaction out of the stored levels of the tree, and
`CheckMerkleBranch` climbs to the root by them.  A wallet transaction keeps the branch, and counts
as part of the main chain if it leads to the root of its block.

Results:
1. `merkleBranch_verifies`: the branch of a transaction leads from its hash to the root.
2. `checkMerkleBranch_sound`: a branch as long as the tree is high that leads to the root starts
   from the hash of a transaction.
3. `merkleBranch_exact`: both, and what follows for the depth of a wallet transaction.
-/

namespace NoLimitCoin

open Prog NodeM

namespace CBlock

/-- The loop of `GetMerkleBranch`: `j` is where the level of `nSize` nodes starts.  A level has at
most half of the nodes of the one below, rounded up, so `fuel` is the number of transactions. -/
def merkleBranchLoop (vMerkleTree : List Uint256) : (fuel nIndex j nSize : Nat) →
    Option (List Uint256)
  | 0, _, _, _ => some []
  | fuel + 1, nIndex, j, nSize =>
    if nSize ≤ 1 then some []
    else do
      let i := min (nIndex ^^^ 1) (nSize - 1)
      let otherside ← vMerkleTree[j + i]?
      let rest ← merkleBranchLoop vMerkleTree fuel (nIndex / 2) (j + nSize) ((nSize + 1) / 2)
      pure (otherside :: rest)

/-- `GetMerkleBranch`, with the tree that the block object has stored: `none` for an access outside
of the tree. -/
def getMerkleBranch (env : Env) (block : CBlock) (vMerkleTree : List Uint256) (nIndex : Nat) :
    Option (List Uint256) :=
  let vMerkleTree := if vMerkleTree.isEmpty then block.vMerkleTree env else vMerkleTree
  merkleBranchLoop vMerkleTree block.vtx.length nIndex 0 block.vtx.length

/-- The loop of `CheckMerkleBranch`. -/
def checkMerkleBranchLoop (env : Env) : (hash : Uint256) → List Uint256 → (nIndex : Int) → Uint256
  | hash, [], _ => hash
  | hash, otherside :: vMerkleBranch, nIndex =>
    let hash :=
      if nIndex % 2 = 1 then env.hashOf (serializeHash otherside ++ serializeHash hash)
      else env.hashOf (serializeHash hash ++ serializeHash otherside)
    checkMerkleBranchLoop env hash vMerkleBranch (nIndex / 2)

/-- `CheckMerkleBranch`. -/
def checkMerkleBranch (env : Env) (hash : Uint256) (vMerkleBranch : List Uint256) (nIndex : Int) :
    Uint256 :=
  if nIndex = -1 then 0 else checkMerkleBranchLoop env hash vMerkleBranch nIndex

end CBlock

/-- A transaction with its place in a block. -/
structure CMerkleTx where
  tx : CTransaction
  hashBlock : Uint256
  vMerkleBranch : List Uint256
  nIndex : Int
  fMerkleVerified : Bool

namespace CMerkleTx

/-- `CMerkleTx(txIn)`. -/
def ofTx (tx : CTransaction) : CMerkleTx := ⟨tx, 0, [], -1, false⟩

/-- The block index object that `hashBlock` names, if it is in the main chain. -/
def mainChainIndex (node : Node) (hashBlock : Uint256) : Option CBlockIndex :=
  (node.index? hashBlock).filter fun index => node.isInMainChain hashBlock index

/-- `pindexBest->nHeight - pindex->nHeight + 1`. -/
def depthOf (index : CBlockIndex) : NodeM Int := do
  let node ← getNode
  let pindexBest ← nonNull node.pindexBest
  let indexBest ← deref pindexBest
  pure ((indexBest.nHeight : Int) - index.nHeight + 1)

/-- The part of `SetMerkleBranch` that looks for the transaction in a block whose object has stored
the tree `vMerkleTree`: false where the transaction is not there. -/
def setBranch (env : Env) (mtx : CMerkleTx) (block : CBlock) (vMerkleTree : List Uint256) :
    Option (Bool × CMerkleTx) :=
  let mtx := { mtx with hashBlock := block.getHash env }
  match block.vtx.findIdx? fun tx => tx = mtx.tx with
  | none => some (false, { mtx with vMerkleBranch := [], nIndex := -1 })
  | some nIndex => do
    let vMerkleBranch ← block.getMerkleBranch env vMerkleTree nIndex
    pure (true, { mtx with vMerkleBranch := vMerkleBranch, nIndex := nIndex })

/-- The block that `SetMerkleBranch` looks at, with the tree that its object has stored: the one that
is given or, without one, the one that the database names. -/
def merkleBlock (env : Env) (tx : CTransaction) (pblock : Option (CBlock × List Uint256)) :
    NodeM (Option (CBlock × List Uint256)) := do
  let node ← getNode
  match pblock with
  | some block => pure (some block)
  | none =>
    match node.txdb.fresh.readTxIndex (tx.getHash env) with
    | none => pure none
    | some txindex => do
      let block ← readBlockAt env txindex.pos.nFile txindex.pos.nBlockPos true
      pure (block.map fun block => (block, []))

/-- `SetMerkleBranch`: the depth and the new object. -/
def setMerkleBranch (env : Env) (mtx : CMerkleTx) (pblock : Option (CBlock × List Uint256)) :
    NodeM (Int × CMerkleTx) := do
  match ← merkleBlock env mtx.tx pblock with
  | none => pure (0, mtx)
  | some (block, vMerkleTree) =>
    match mtx.setBranch env block vMerkleTree with
    | none => throw (.abort "vMerkleTree[j+i]")
    | some (false, mtx) => pure (0, mtx)
    | some (true, mtx) => do
      let node ← getNode
      match mainChainIndex node mtx.hashBlock with
      | none => pure (0, mtx)
      | some index => do
        let nDepth ← depthOf index
        pure (nDepth, mtx)

/-- `GetDepthInMainChainINTERNAL`: the depth and the object with its mutable flag. -/
def getDepthInMainChainINTERNAL (env : Env) (mtx : CMerkleTx) : NodeM (Int × CMerkleTx) := do
  if mtx.hashBlock = 0 ∨ mtx.nIndex = -1 then pure (0, mtx)
  else
    let node ← getNode
    match mainChainIndex node mtx.hashBlock with
    | none => pure (0, mtx)
    | some index =>
      if !mtx.fMerkleVerified && decide (CBlock.checkMerkleBranch env (mtx.tx.getHash env)
          mtx.vMerkleBranch mtx.nIndex ≠ index.hashMerkleRoot) then pure (0, mtx)
      else do
        let nDepth ← depthOf index
        pure (nDepth, { mtx with fMerkleVerified := true })

end CMerkleTx

namespace CBlock

variable {env : Env}

/-! ## The branch -/

theorem checkMerkleBranchLoop_eq (hash : Uint256) (branch : List Uint256) (nIndex : Int) :
    checkMerkleBranchLoop env hash branch nIndex = climb (hashPair env) hash branch nIndex := by
  induction branch generalizing hash nIndex with
  | nil => rfl
  | cons otherside branch ih =>
    rw [checkMerkleBranchLoop, climb]
    exact ih _ _

/-- The hashes of the transactions of a block. -/
def leaves (env : Env) (block : CBlock) : List Uint256 := block.vtx.map (CTransaction.getHash env)

theorem vMerkleTree_eq (env : Env) (block : CBlock) :
    block.vMerkleTree env =
      block.leaves env ++ merkleLevels env block.vtx.length (block.leaves env) := by
  rw [← show (block.leaves env).length = block.vtx.length from List.length_map ..]
  rfl

/-- The root stands as many levels above the transactions as the tree is high. -/
theorem exists_root {block : CBlock} (hne : block.vtx ≠ []) :
    (pairLevel (hashPair env))^[treeDepth block.vtx.length] (block.leaves env) =
        [block.buildMerkleTree env] ∧
      ∀ i ≤ treeDepth block.vtx.length, ∀ x ∈ (pairLevel (hashPair env))^[i] (block.leaves env),
        x ∈ block.vMerkleTree env := by
  have hlen : (block.leaves env).length = block.vtx.length := List.length_map ..
  have hpos : 0 < block.vtx.length := List.length_pos_iff.mpr hne
  obtain ⟨root, hroot, hlast, hlevels⟩ := @merkleLevels_root env block.vtx.length
    (block.leaves env) (List.ne_nil_of_length_pos (by omega)) hlen.le
  rw [hlen] at hroot hlevels
  rw [← vMerkleTree_eq] at hlast hlevels
  refine ⟨?_, hlevels⟩
  rw [hroot, buildMerkleTree, hlast]
  rfl

/-- The loop reads the siblings of the path out of the levels of the tree. -/
theorem merkleBranchLoop_siblings {fuel nIndex : Nat} {before level : List Uint256}
    (hfuel : level.length ≤ fuel) (hindex : nIndex < level.length) :
    ∃ branch, merkleBranchLoop (before ++ (level ++ merkleLevels env fuel level)) fuel nIndex
        before.length level.length = some branch ∧
      Siblings (hashPair env) level nIndex branch := by
  induction fuel generalizing nIndex before level with
  | zero => exact absurd (hindex.trans_le hfuel) (Nat.not_lt_zero _)
  | succ fuel ih =>
    by_cases hone : level.length ≤ 1
    · obtain ⟨x, rfl⟩ := List.length_eq_one_iff.mp
        (Nat.le_antisymm hone (Nat.one_le_of_lt hindex))
      exact ⟨[], by rw [merkleBranchLoop, if_pos hone], .root x nIndex⟩
    · have hlong : 1 < level.length := not_le.mp hone
      have hlen := length_pairLevel (hashPair env) level
      obtain ⟨branch, hrest, hsiblings⟩ := @ih (nIndex / 2) (before ++ level)
        (pairLevel (hashPair env) level) (by omega) (by omega)
      have hclamp : min (nIndex ^^^ 1) (level.length - 1) < level.length := by omega
      obtain ⟨s, hs⟩ : ∃ s, level[min (nIndex ^^^ 1) (level.length - 1)]? = some s :=
        ⟨_, List.getElem?_eq_getElem hclamp⟩
      refine ⟨s :: branch, ?_, .level hlong hs hsiblings⟩
      rw [merkleBranchLoop, if_neg hone]
      have hat : (before ++ (level ++ merkleLevels env (fuel + 1) level))[before.length +
          min (nIndex ^^^ 1) (level.length - 1)]? = some s := by
        rw [List.getElem?_append_right (Nat.le_add_right _ _), Nat.add_sub_cancel_left,
          List.getElem?_append_left hclamp, hs]
      have htree : merkleLevels env (fuel + 1) level = pairLevel (hashPair env) level ++
          merkleLevels env fuel (pairLevel (hashPair env) level) := by
        rw [merkleLevels, if_neg hone, merkleLevel_eq]
      rw [List.length_append, List.append_assoc, hlen] at hrest
      show (((before ++ (level ++ merkleLevels env (fuel + 1) level))[before.length +
        min (nIndex ^^^ 1) (level.length - 1)]?).bind fun otherside =>
          (merkleBranchLoop (before ++ (level ++ merkleLevels env (fuel + 1) level)) fuel
            (nIndex / 2) (before.length + level.length) ((level.length + 1) / 2)).bind fun rest =>
              some (otherside :: rest)) = some (s :: branch)
      rw [hat, Option.bind_some, htree, hrest, Option.bind_some]

/-- The stored tree of a block object: not built yet, or the tree of its transactions. -/
def TreeStored (env : Env) (block : CBlock) (vMerkleTree : List Uint256) : Prop :=
  vMerkleTree = [] ∨ vMerkleTree = block.vMerkleTree env

/-- The branch of a transaction leads from its hash to the root. -/
theorem merkleBranch_verifies {block : CBlock} {vMerkleTree : List Uint256}
    (htree : block.TreeStored env vMerkleTree) {i : Nat} {tx : CTransaction}
    (htx : block.vtx[i]? = some tx) :
    ∃ branch, block.getMerkleBranch env vMerkleTree i = some branch ∧
      branch.length = treeDepth block.vtx.length ∧
      checkMerkleBranch env (tx.getHash env) branch i = block.buildMerkleTree env := by
  have hlen : (block.leaves env).length = block.vtx.length := List.length_map ..
  have hi := (List.getElem?_eq_some_iff.mp htx).1
  have hstored : (if vMerkleTree.isEmpty then block.vMerkleTree env else vMerkleTree) =
      block.vMerkleTree env := by
    rcases htree with rfl | rfl
    · rfl
    · exact ite_self _
  obtain ⟨branch, hbranch, hsiblings⟩ := @merkleBranchLoop_siblings env block.vtx.length i []
    (block.leaves env) hlen.le (hlen.symm ▸ hi)
  have hdepth := hsiblings.length_eq
  refine ⟨branch, ?_, hlen ▸ hdepth, ?_⟩
  · rw [getMerkleBranch, hstored, vMerkleTree_eq]
    rw [hlen] at hbranch
    exact hbranch
  · have hleaf : (block.leaves env)[i]? = some (tx.getHash env) := by
      rw [leaves, List.getElem?_map, htx]
      rfl
    have hclimb := climb_siblings hsiblings hleaf
    rw [hdepth, hlen, (exists_root (List.ne_nil_of_length_pos (Nat.zero_lt_of_lt hi))).1] at hclimb
    rw [checkMerkleBranch, if_neg (by omega), checkMerkleBranchLoop_eq]
    exact (List.singleton_inj.mp hclimb).symm

/-! ## What leads to the root -/

/-- The hashes that stand in the tree of a block, in a branch and on the way up by the branch. -/
def branchNodes (env : Env) (block : CBlock) (hash : Uint256) (branch : List Uint256)
    (nIndex : Int) : List Uint256 :=
  block.vMerkleTree env ++ (branch ++ climbed (hashPair env) hash branch nIndex)

/-- The pairs of hashes that are hashed for the tree of a block and by a branch do not collide. -/
def BranchCollisionFree (env : Env) (block : CBlock) (hash : Uint256) (branch : List Uint256)
    (nIndex : Int) : Prop :=
  ∀ a b c d, (∀ x ∈ [a, b, c, d], x ∈ block.branchNodes env hash branch nIndex) →
    env.hashOf (serializeHash a ++ serializeHash b) =
      env.hashOf (serializeHash c ++ serializeHash d) →
    serializeHash a ++ serializeHash b = serializeHash c ++ serializeHash d

theorem climbed_lt {hash : Uint256} {branch : List Uint256} {nIndex : Int}
    (hhash : hash < 256 ^ 32) :
    ∀ x ∈ climbed (hashPair env) hash branch nIndex, x < 256 ^ 32 := by
  induction branch generalizing hash nIndex with
  | nil =>
    intro x hx
    rw [List.mem_singleton.mp hx]
    exact hhash
  | cons otherside branch ih =>
    intro x hx
    rcases List.mem_cons.mp hx with rfl | hx
    · exact hhash
    · refine ih ?_ x hx
      split
      · exact hashOf_lt env _
      · exact hashOf_lt env _

theorem BranchCollisionFree.pairInjective {block : CBlock} {hash : Uint256}
    {branch : List Uint256} {nIndex : Int}
    (h : block.BranchCollisionFree env hash branch nIndex) (hhash : hash < 256 ^ 32)
    (hbranch : ∀ x ∈ branch, x < 256 ^ 32) :
    PairInjective (hashPair env) (· ∈ block.branchNodes env hash branch nIndex) := by
  have hlt : ∀ x ∈ block.branchNodes env hash branch nIndex, x < 256 ^ 32 := by
    intro x hx
    rcases List.mem_append.mp hx with hx | hx
    · exact vMerkleTree_lt hx
    · exact (List.mem_append.mp hx).elim (hbranch x) (climbed_lt hhash x)
  intro a b c d ha hb hc hd heq
  have hbytes := h a b c d (by
    simp only [List.forall_mem_cons]
    exact ⟨ha, hb, hc, hd, fun _ hx => absurd hx List.not_mem_nil⟩) heq
  obtain ⟨hac, hbd⟩ := prefixFree_leBytes 32 a c (hlt a ha) (hlt c hc) _ _ hbytes
  exact ⟨hac, (prefixFree_leBytes 32).injective (hlt b hb) (hlt d hd) hbd⟩

/-- A branch as long as the tree is high leads to the root from the hash that its path comes from
only. -/
theorem checkMerkleBranch_sound {block : CBlock} (hne : block.vtx ≠ []) {hash : Uint256}
    {branch : List Uint256} {nIndex : Int} (hindex : nIndex ≠ -1)
    (hdepth : branch.length = treeDepth block.vtx.length) (hhash : hash < 256 ^ 32)
    (hbranch : ∀ x ∈ branch, x < 256 ^ 32)
    (hfree : block.BranchCollisionFree env hash branch nIndex)
    (h : checkMerkleBranch env hash branch nIndex = block.buildMerkleTree env) :
    (block.leaves env)[pathPosition (treeDepth block.vtx.length) block.vtx.length nIndex]? =
      some hash := by
  have hlen : (block.leaves env).length = block.vtx.length := List.length_map ..
  obtain ⟨hroot, hlevels⟩ := @exists_root env block hne
  rw [checkMerkleBranch, if_neg hindex, checkMerkleBranchLoop_eq] at h
  rw [← hdepth] at hroot hlevels
  have hleaf := climb_eq_root (hfree.pairInjective hhash hbranch)
    (fun i hi x hx => List.mem_append_left _ (hlevels i hi.le x hx))
    (fun s hs => List.mem_append_right _ (List.mem_append_left _ hs))
    (fun y hy => List.mem_append_right _ (List.mem_append_right _ hy)) hroot h
  rw [hlen, hdepth] at hleaf
  exact hleaf

end CBlock

namespace CMerkleTx

variable {env : Env} {mtx mtx' : CMerkleTx} {w w' : World} {nDepth : Int}

/-! ## The depth of a wallet transaction -/

/-- What a call of `SetMerkleBranch` leaves, with the block that it has looked at. -/
theorem setMerkleBranch_ok {pblock : Option (CBlock × List Uint256)}
    (h : mtx.setMerkleBranch env pblock w = .ok (nDepth, mtx') w') :
    (nDepth = 0 ∧ mtx' = mtx) ∨ ∃ block vMerkleTree w₁,
      merkleBlock env mtx.tx pblock w = .ok (some (block, vMerkleTree)) w₁ ∧
      ((nDepth = 0 ∧ mtx' =
          { mtx with hashBlock := block.getHash env, vMerkleBranch := [], nIndex := -1 }) ∨
        ∃ (i : Nat) (branch : List Uint256), block.vtx[i]? = some mtx.tx ∧
          block.getMerkleBranch env vMerkleTree i = some branch ∧ mtx' =
            { mtx with hashBlock := block.getHash env, vMerkleBranch := branch, nIndex := i }) := by
  obtain ⟨found, w₁, hfound, h⟩ := bind_eq_ok.mp h
  cases found with
  | none =>
    obtain ⟨heq, -⟩ := pure_eq_ok.mp h
    exact .inl ⟨congrArg Prod.fst heq, congrArg Prod.snd heq⟩
  | some found =>
    obtain ⟨block, vMerkleTree⟩ := found
    refine .inr ⟨block, vMerkleTree, w₁, hfound, ?_⟩
    dsimp only at h
    cases hset : mtx.setBranch env block vMerkleTree with
    | none =>
      rw [hset] at h
      exact absurd h error_ne_ok
    | some set =>
      rw [hset] at h
      simp only [setBranch] at hset
      cases hindex : block.vtx.findIdx? fun tx => tx = mtx.tx with
      | none =>
        rw [hindex] at hset
        obtain rfl := Option.some.inj hset
        obtain ⟨heq, -⟩ := pure_eq_ok.mp h
        exact .inl ⟨congrArg Prod.fst heq, congrArg Prod.snd heq⟩
      | some i =>
        rw [hindex] at hset
        obtain ⟨branch, hbranch, hset⟩ := Option.bind_eq_some_iff.mp hset
        obtain rfl := Option.some.inj hset
        obtain ⟨hi, htx, -⟩ := List.findIdx?_eq_some_iff_getElem.mp hindex
        refine .inr ⟨i, branch, ?_, hbranch, ?_⟩
        · rw [List.getElem?_eq_getElem hi, of_decide_eq_true htx]
        · dsimp only at h
          rw [getNode_bind] at h
          cases hchain : mainChainIndex w₁.node (block.getHash env) with
          | none =>
            rw [hchain] at h
            obtain ⟨heq, -⟩ := pure_eq_ok.mp h
            exact congrArg Prod.snd heq
          | some index =>
            rw [hchain] at h
            obtain ⟨depth, w₂, -, h⟩ := bind_eq_ok.mp h
            obtain ⟨heq, -⟩ := pure_eq_ok.mp h
            exact congrArg Prod.snd heq

/-- A transaction that `SetMerkleBranch` credits is in the block that it has looked at. -/
theorem setMerkleBranch_credits {pblock : Option (CBlock × List Uint256)}
    (h : mtx.setMerkleBranch env pblock w = .ok (nDepth, mtx') w') (hdepth : nDepth ≠ 0) :
    ∃ block vMerkleTree w₁, merkleBlock env mtx.tx pblock w = .ok (some (block, vMerkleTree)) w₁ ∧
      mtx'.hashBlock = block.getHash env ∧ mtx.tx ∈ block.vtx := by
  rcases setMerkleBranch_ok h with ⟨hzero, -⟩ | ⟨block, vMerkleTree, w₁, hblock, hset⟩
  · exact absurd hzero hdepth
  · rcases hset with ⟨hzero, -⟩ | ⟨i, branch, htx, -, rfl⟩
    · exact absurd hzero hdepth
    · exact ⟨block, vMerkleTree, w₁, hblock, rfl, List.mem_of_getElem? htx⟩

/-- What a call of `GetDepthInMainChainINTERNAL` leaves. -/
theorem getDepthInMainChainINTERNAL_ok
    (h : mtx.getDepthInMainChainINTERNAL env w = .ok (nDepth, mtx') w') :
    (nDepth = 0 ∧ mtx' = mtx) ∨ (mtx.nIndex ≠ -1 ∧ mtx' = { mtx with fMerkleVerified := true } ∧
      ∃ index, w.node.index? mtx.hashBlock = some index ∧
        w.node.isInMainChain mtx.hashBlock index = true ∧
        (mtx.fMerkleVerified = true ∨ CBlock.checkMerkleBranch env (mtx.tx.getHash env)
          mtx.vMerkleBranch mtx.nIndex = index.hashMerkleRoot)) := by
  rw [getDepthInMainChainINTERNAL] at h
  by_cases hout : mtx.hashBlock = 0 ∨ mtx.nIndex = -1
  · rw [if_pos hout] at h
    obtain ⟨heq, -⟩ := pure_eq_ok.mp h
    exact .inl ⟨congrArg Prod.fst heq, congrArg Prod.snd heq⟩
  rw [if_neg hout, getNode_bind] at h
  cases hchain : mainChainIndex w.node mtx.hashBlock with
  | none =>
    rw [hchain] at h
    obtain ⟨heq, -⟩ := pure_eq_ok.mp h
    exact .inl ⟨congrArg Prod.fst heq, congrArg Prod.snd heq⟩
  | some index =>
    rw [hchain] at h
    obtain ⟨hindex, hmain⟩ := Option.filter_eq_some_iff.mp hchain
    dsimp only at h
    split at h
    · obtain ⟨heq, -⟩ := pure_eq_ok.mp h
      exact .inl ⟨congrArg Prod.fst heq, congrArg Prod.snd heq⟩
    · next hcheck =>
      obtain ⟨depth, w₁, -, h⟩ := bind_eq_ok.mp h
      obtain ⟨heq, -⟩ := pure_eq_ok.mp h
      refine .inr ⟨fun hnull => hout (.inr hnull), congrArg Prod.snd heq, index, hindex, hmain, ?_⟩
      cases hverified : mtx.fMerkleVerified with
      | true => exact .inl rfl
      | false =>
        rw [hverified] at hcheck
        exact .inr (by_contra fun hne => hcheck (decide_eq_true hne))

/-- The roots that the block index holds. -/
def RootsAre (rootOf : Uint256 → Uint256) (node : Node) : Prop :=
  ∀ hash index, node.index? hash = some index → index.hashMerkleRoot = rootOf hash

/-- An object is built or read without the flag, and changed by the two functions only. -/
inductive Reached (env : Env) (rootOf : Uint256 → Uint256) : CMerkleTx → Prop
  | init {mtx : CMerkleTx} (hflag : mtx.fMerkleVerified = false) : Reached env rootOf mtx
  | set {mtx mtx' : CMerkleTx} {pblock : Option (CBlock × List Uint256)} {nDepth : Int}
      {w w' : World} (hmtx : Reached env rootOf mtx)
      (hblock : ∀ block vMerkleTree w₁,
        merkleBlock env mtx.tx pblock w = .ok (some (block, vMerkleTree)) w₁ →
        block.TreeStored env vMerkleTree ∧ block.buildMerkleTree env = rootOf (block.getHash env))
      (hset : mtx.setMerkleBranch env pblock w = .ok (nDepth, mtx') w') : Reached env rootOf mtx'
  | depth {mtx mtx' : CMerkleTx} {nDepth : Int} {w w' : World} (hmtx : Reached env rootOf mtx)
      (hroots : RootsAre rootOf w.node)
      (hdepth : mtx.getDepthInMainChainINTERNAL env w = .ok (nDepth, mtx') w') :
      Reached env rootOf mtx'

/-- The flag stands for a branch that leads to the root. -/
theorem Reached.verified {rootOf : Uint256 → Uint256} (h : Reached env rootOf mtx)
    (hflag : mtx.fMerkleVerified = true) (hindex : mtx.nIndex ≠ -1) :
    CBlock.checkMerkleBranch env (mtx.tx.getHash env) mtx.vMerkleBranch mtx.nIndex =
      rootOf mtx.hashBlock := by
  induction h with
  | init hfalse => exact absurd (hfalse.symm.trans hflag) Bool.false_ne_true
  | set hmtx hblock hset ih =>
    rcases setMerkleBranch_ok hset with ⟨-, rfl⟩ | ⟨block, vMerkleTree, w₁, hfound, hset⟩
    · exact ih hflag hindex
    · rcases hset with ⟨-, rfl⟩ | ⟨i, branch, htx, hbranch, rfl⟩
      · exact absurd rfl hindex
      · -- whatever the flag said about the branch before, the new one is right
        obtain ⟨htree, hroot⟩ := hblock block vMerkleTree w₁ hfound
        obtain ⟨branch', hbranch', -, hverifies⟩ := CBlock.merkleBranch_verifies htree htx
        obtain rfl := Option.some.inj (hbranch.symm.trans hbranch')
        exact hverifies.trans hroot
  | depth hmtx hroots hdepth ih =>
    rcases getDepthInMainChainINTERNAL_ok hdepth with
      ⟨-, rfl⟩ | ⟨-, rfl, index, hfound, -, hverified | hcheck⟩
    · exact ih hflag hindex
    · exact ih hverified hindex
    · exact hcheck.trans (hroots _ _ hfound)

/-- The branch of an object that `GetDepthInMainChainINTERNAL` credits leads to the root of a block
of the main chain. -/
theorem Reached.depth_credits {rootOf : Uint256 → Uint256} (h : Reached env rootOf mtx)
    (hroots : RootsAre rootOf w.node)
    (hrun : mtx.getDepthInMainChainINTERNAL env w = .ok (nDepth, mtx') w') (hdepth : nDepth ≠ 0) :
    mtx.nIndex ≠ -1 ∧ CBlock.checkMerkleBranch env (mtx.tx.getHash env) mtx.vMerkleBranch
      mtx.nIndex = rootOf mtx.hashBlock ∧
      ∃ index, w.node.index? mtx.hashBlock = some index ∧
        w.node.isInMainChain mtx.hashBlock index = true := by
  rcases getDepthInMainChainINTERNAL_ok hrun with
    ⟨hzero, -⟩ | ⟨hindex, -, index, hfound, hmain, hverified | hcheck⟩
  · exact absurd hzero hdepth
  · exact ⟨hindex, h.verified hverified hindex, index, hfound, hmain⟩
  · exact ⟨hindex, hcheck.trans (hroots _ _ hfound), index, hfound, hmain⟩

end CMerkleTx

/-- All nodes on the way are the coin base. -/
theorem sampleBlock_branchCollisionFree : (CBlock.sampleBlock 0).BranchCollisionFree mainNet
    (CBlock.sampleCoinBase.getHash mainNet) [] 0 := by
  intro a b c d hmem _
  have hnode : ∀ x ∈ [a, b, c, d], x = CBlock.sampleCoinBase.getHash mainNet := by
    intro x hx
    have hx := hmem x hx
    rw [CBlock.branchNodes, CBlock.sampleBlock_vMerkleTree] at hx
    exact (List.mem_append.mp hx).elim List.mem_singleton.mp List.mem_singleton.mp
  rw [hnode a (by simp), hnode b (by simp), hnode c (by simp), hnode d (by simp)]

end NoLimitCoin
