import NoLimitCoin.SyncCheckpoint

/-!
# The selection of stake modifiers

`ComputeNextStakeModifier` collects the blocks of the selection interval, sorts them by time and
hash, and lets up to 64 of them contribute a bit each.

Results:
1. `Reaches.modifierChain`: the blocks below a block of the index lead to one that has a modifier
   of its own.
2. `modifierRounds_spec`: the rounds select different candidates, each by the smallest selection
   hash among those in time, and write their entropy bits.
3. `computeNextStakeModifier_selects`: the computation does not fail, and it looks at nothing but
   the previous block and what is below it.
-/

namespace NoLimitCoin

open Prog NodeM

/-! ## Chains with a modifier -/

/-- The path from a block down to a first block that has generated a modifier. -/
structure ModifierChain (node : Node) (chain : List Uint256) : Prop where
  lineage : Lineage node.parent chain
  indexed : ∀ p ∈ chain, ∃ index, node.index? p = some index
  generated : ∀ p ∈ chain, ∀ index, node.index? p = some index → index.pprev = none →
    index.generatedStakeModifier = true

namespace ModifierChain

variable {node node' : Node} {p q : Uint256} {rest chain : List Uint256} {index : CBlockIndex}

theorem tail (h : ModifierChain node (p :: q :: rest)) : ModifierChain node (q :: rest) where
  lineage := h.lineage.tail.2
  indexed a ha := h.indexed a (List.mem_cons_of_mem p ha)
  generated a ha := h.generated a (List.mem_cons_of_mem p ha)

theorem pprev (h : ModifierChain node (p :: q :: rest)) (hp : node.index? p = some index) :
    index.pprev = some q := by
  have hparent := h.lineage.tail.1
  rwa [Node.parent, hp] at hparent

theorem pprev_root (h : ModifierChain node [p]) (hp : node.index? p = some index) :
    index.pprev = none := by
  cases h.lineage with
  | root hroot => rwa [Node.parent, hp] at hroot

theorem length_le (h : ModifierChain node chain) : chain.length ≤ node.mapBlockIndex.size := by
  have hsubset : chain ⊆ node.mapBlockIndex.keys := fun p hp => by
    obtain ⟨index, hindex⟩ := h.indexed p hp
    rw [Std.ExtTreeMap.mem_keys, ← Std.ExtTreeMap.contains_iff_mem]
    exact (Map.contains_iff _ _).mpr ⟨index, hindex⟩
  have hle := (h.lineage.nodup_self.subperm hsubset).length_le
  rwa [Std.ExtTreeMap.length_keys] at hle

end ModifierChain

/-! ## The chains of a node -/

/-- Every block of the index without a previous one has generated a modifier. -/
def RootsGenerated (node : Node) : Prop :=
  ∀ p index, node.index? p = some index → index.pprev = none → index.generatedStakeModifier = true

namespace RootsGenerated

variable {env : Env} {node node' : Node}

theorem of_sameCore (h : RootsGenerated node) (hsame : SameCore node node') :
    RootsGenerated node' := by
  intro p index' hp' hroot
  obtain ⟨index, hp, hcore⟩ := hsame.symm.index hp'
  have hgenerated := h p index hp
  rw [CBlockIndex.eq_of_core hcore] at hgenerated
  exact hgenerated hroot

theorem testBit_flags (a b : Nat) : (a ||| b ||| blockStakeModifier).testBit 2 = true := by
  rw [Nat.testBit_or, Bool.or_eq_true]
  exact .inr (by decide)

/-- `AddToBlockIndex` gives a block without a previous one a modifier of its own. -/
theorem of_newIndex {block : CBlock} {nFile nBlockPos : Nat} {hashProof : Uint256}
    {index : CBlockIndex} (hnew : block.IsNewIndex env node nFile nBlockPos hashProof index)
    (hroot : index.pprev = none) : index.generatedStakeModifier = true := by
  obtain ⟨-, modifier, hmodifier, rfl⟩ := hnew
  have hnone : (block.newIndex env node nFile nBlockPos hashProof).pprev = none := hroot
  rw [hnone] at hmodifier
  obtain rfl := Option.some.inj hmodifier
  exact testBit_flags _ _

theorem insert (h : RootsGenerated node) {p : Uint256} {index : CBlockIndex}
    (hindex : index.pprev = none → index.generatedStakeModifier = true)
    (hnode : ∀ q, node'.index? q = if p = q then some index else node.index? q) :
    RootsGenerated node' := by
  intro q index' hq
  rw [hnode] at hq
  split at hq
  · rw [← Option.some.inj hq]
    exact hindex
  · exact h q index' hq

end RootsGenerated

/-- A block that has been put into the index, with or without its record. -/
theorem RootsGenerated.of_inserted {env : Env} {block : CBlock} {nFile nBlockPos : Nat}
    {hashProof : Uint256} {index : CBlockIndex} {pdb : Map DbKey DbVal} {w w₁ w' : World}
    {pos : Nat × Nat} (h : RootsGenerated w.node) (hwrite : writeToDisk block w = .ok pos w₁)
    (hnew : block.IsNewIndex env w₁.node nFile nBlockPos hashProof index)
    (hnode : w'.node = { (w₁.inserted env block index).node with txdb := ⟨pdb, none⟩ }) :
    RootsGenerated w'.node := by
  obtain ⟨-, -, -, hput⟩ := writeToDisk_ok hwrite
  have hindex : ∀ q, w₁.node.index? q = w.node.index? q := fun q => by rw [hput]; rfl
  refine h.insert (p := block.getHash env) (RootsGenerated.of_newIndex hnew) fun q => ?_
  rw [hnode, ← hindex]
  exact Node.index?_setIndex _ _ _ _

theorem Move.rootsGenerated {env : Env} {w w' : World} (h : Move env w w')
    (hroots : RootsGenerated w.node) : RootsGenerated w'.node := by
  cases h with
  | aside haside => exact hroots.of_sameCore (.of_sameLinks (SameChain.of_aside haside).links)
  | added haccept hwrite hinsert =>
    obtain ⟨hnew, -, hnode, -⟩ := CBlock.insertIndex_ok hinsert
    exact hroots.of_inserted hwrite hnew hnode
  | unrecorded haccept hwrite hinsert =>
    rcases CBlock.insertIndex_reject hinsert with hsame | ⟨index, hnew, hnode, -⟩
    · rw [hsame.node, (writeToDisk_ok hwrite).2.2.2]
      exact hroots
    · exact hroots.of_inserted hwrite hnew hnode
  | setBest hstored hhash hguarded hrun =>
    obtain ⟨w₁, w₂, -, -, -, htree, rfl⟩ := setBestChain_ok hrun
    exact hroots.of_sameCore htree.core
  | setBestFailed hstored hhash hrun =>
    obtain ⟨hkept, hdropped⟩ := reject_setBestChain hrun
    exact hroots.of_sameCore (.of_sameLinks (SameChain.of_dropped hkept hdropped).links)
  | checkpoint hextends hmain hrun =>
    rw [(writeSyncCheckpoint_ok hrun).2.2]
    exact hroots
  | checkpointFailed hrun =>
    obtain ⟨hkept, hdropped⟩ := reject_writeSyncCheckpoint hrun
    exact hroots.of_sameCore (.of_sameLinks (SameChain.of_dropped hkept hdropped).links)

theorem Starts.rootsGenerated {env : Env} {w : World} (h : Starts env w) :
    RootsGenerated w.node := by
  obtain ⟨sys, index, w₁, hgenesis, honly, -⟩ := h.genesis
  intro p index' hp hroot
  rw [honly.node] at hp
  have heq := (hgenesis.index?_eq p).symm.trans hp
  split at heq
  · obtain rfl := Option.some.inj heq
    exact RootsGenerated.of_newIndex hgenesis.new hroot
  · exact absurd heq (by simp)

theorem Reaches.rootsGenerated {env : Env} {w : World} (h : Reaches env w) :
    RootsGenerated w.node := by
  obtain ⟨w₀, hstart, hmoves⟩ := h.moves
  clear h
  induction hmoves with
  | refl => exact hstart.rootsGenerated
  | tail _ hmove ih => exact hmove.rootsGenerated ih

/-- The previous block of a block is in the index, one level lower. -/
theorem IndexInv.parent {env : Env} {node : Node} (h : IndexInv env node) {p q : Uint256}
    (hparent : node.parent p = some q) : ∃ index indexPrev, node.index? p = some index ∧
      node.index? q = some indexPrev ∧ index.nHeight = indexPrev.nHeight + 1 := by
  obtain ⟨index, hp, hpprev⟩ := Option.bind_eq_some_iff.mp hparent
  obtain ⟨block, -, -, hplaced⟩ := h.objects p index hp
  rcases hplaced with ⟨hroot, -, -⟩ | ⟨hprev, -, indexPrev, hindexPrev, hheight⟩
  · rw [hroot] at hpprev
    exact absurd hpprev (by simp)
  · obtain rfl := Option.some.inj (hprev.symm.trans hpprev)
    exact ⟨index, indexPrev, hp, hindexPrev, hheight⟩

/-- All blocks of a lineage are in the index. -/
theorem IndexInv.indexed_of_lineage {env : Env} {node : Node} (h : IndexInv env node)
    {p : Uint256} {rest : List Uint256} (hlineage : Lineage node.parent (p :: rest))
    (hp : ∃ index, node.index? p = some index) :
    ∀ q ∈ p :: rest, ∃ index, node.index? q = some index := by
  induction rest generalizing p with
  | nil => exact List.forall_mem_singleton.mpr hp
  | cons q rest ih =>
    obtain ⟨hparent, hrest⟩ := hlineage.tail
    obtain ⟨-, indexPrev, -, hq, -⟩ := h.parent hparent
    exact List.forall_mem_cons.mpr ⟨hp, ih hrest ⟨indexPrev, hq⟩⟩

/-- Below every block of the index, the chain leads to a block with a modifier of its own. -/
theorem Reaches.modifierChain {env : Env} {w : World} (h : Reaches env w) {prev : Uint256}
    {indexPrev : CBlockIndex} (hprev : w.node.index? prev = some indexPrev) :
    ∃ rest, ModifierChain w.node (prev :: rest) := by
  have hinv := h.treeInv.index
  have hrank : ∀ a b, w.node.parent a = some b → w.node.heightOf b < w.node.heightOf a := by
    intro a b hparent
    obtain ⟨index, index', ha, hb, hheight⟩ := hinv.parent hparent
    rw [Node.heightOf, Node.heightOf, ha, hb]
    exact Nat.lt_of_succ_le hheight.ge
  obtain ⟨rest, hlineage⟩ := Lineage.exists_of_rank hrank prev
  exact ⟨rest, hlineage, hinv.indexed_of_lineage hlineage ⟨indexPrev, hprev⟩,
    fun p _ => h.rootsGenerated p⟩

/-! ## The walk down the chain -/

namespace Node

variable {node : Node}

/-- The time of a block of the index. -/
def timeOf (node : Node) (p : Uint256) : Int := ((node.index? p).map CBlockIndex.getBlockTime).getD 0

def generatedAt (node : Node) (p : Uint256) : Bool :=
  ((node.index? p).map CBlockIndex.generatedStakeModifier).getD false

/-- The entropy bit of a block of the index. -/
def entropyAt (node : Node) (p : Uint256) : Bool :=
  ((node.index? p).map fun index => index.getStakeEntropyBit.testBit 0).getD false

def selectionHashAt (env : Env) (node : Node) (nStakeModifierPrev : Nat) (p : Uint256) : Uint256 :=
  ((node.index? p).map (selectionHash env nStakeModifierPrev)).getD 0

theorem lastGenerated_generated {index : CBlockIndex} (fuel : Nat)
    (h : index.generatedStakeModifier = true) : node.lastGenerated fuel index = index := by
  cases fuel with
  | zero => rfl
  | succ fuel =>
    rw [lastGenerated]
    split
    · rfl
    · exact if_pos h

theorem lastGenerated_here {p : Uint256} {rest : List Uint256} {index : CBlockIndex} (fuel : Nat)
    (hp : node.index? p = some index) (hgenerated : index.generatedStakeModifier = true) :
    ∃ q, (p :: rest).find? node.generatedAt = some q ∧
      node.index? q = some (node.lastGenerated fuel index) := by
  refine ⟨p, List.find?_cons_of_pos ?_, ?_⟩
  · rw [generatedAt, hp]
    exact hgenerated
  · rw [lastGenerated_generated fuel hgenerated, hp]

/-- `GetLastStakeModifier` stops at the first block of the chain with a modifier of its own. -/
theorem lastGenerated_chain {p : Uint256} {rest : List Uint256} {index : CBlockIndex} {fuel : Nat}
    (h : ModifierChain node (p :: rest)) (hp : node.index? p = some index)
    (hfuel : rest.length ≤ fuel) : ∃ q, (p :: rest).find? node.generatedAt = some q ∧
      node.index? q = some (node.lastGenerated fuel index) := by
  induction rest generalizing p index fuel with
  | nil => exact lastGenerated_here fuel hp (h.generated p (by simp) index hp (h.pprev_root hp))
  | cons q rest ih =>
    by_cases hgenerated : index.generatedStakeModifier = true
    · exact lastGenerated_here fuel hp hgenerated
    · obtain ⟨fuel, rfl⟩ := Nat.exists_eq_add_one_of_ne_zero (Nat.ne_zero_of_lt hfuel)
      obtain ⟨indexPrev, hq⟩ := h.indexed q (by simp)
      have hstep : node.lastGenerated (fuel + 1) index = node.lastGenerated fuel indexPrev := by
        rw [lastGenerated, h.pprev hp, Option.bind_some, hq]
        exact if_neg hgenerated
      rw [List.find?_cons_of_neg (by rw [generatedAt, hp]; exact hgenerated), hstep]
      exact ih h.tail hq (Nat.le_of_succ_le_succ hfuel)

theorem candidates_succ {nStart : Int} {p : Uint256} {index : CBlockIndex} (fuel : Nat)
    (hp : node.index? p = some index) : node.candidates nStart (fuel + 1) (some p) =
      if nStart ≤ node.timeOf p then (node.timeOf p, p) :: node.candidates nStart fuel index.pprev
      else [] := by
  rw [timeOf, candidates, hp]
  rfl

/-- The candidates are the topmost blocks of the chain, up to the first one that is too old. -/
theorem candidates_chain {nStart : Int} {p : Uint256} {rest : List Uint256} {fuel : Nat}
    (h : ModifierChain node (p :: rest)) (hfuel : rest.length < fuel) :
    node.candidates nStart fuel (some p) =
      ((p :: rest).takeWhile fun q => decide (nStart ≤ node.timeOf q)).map
        fun q => (node.timeOf q, q) := by
  induction rest generalizing p fuel with
  | nil =>
    obtain ⟨fuel, rfl⟩ := Nat.exists_eq_add_one_of_ne_zero (Nat.ne_zero_of_lt hfuel)
    obtain ⟨index, hp⟩ := h.indexed p (by simp)
    have hnone : node.candidates nStart fuel none = [] := by cases fuel <;> rfl
    rw [candidates_succ fuel hp, h.pprev_root hp, hnone]
    by_cases hstart : nStart ≤ node.timeOf p
    · rw [if_pos hstart, List.takeWhile_cons_of_pos (by simpa using hstart)]
      rfl
    · rw [if_neg hstart, List.takeWhile_cons_of_neg (by simpa using hstart)]
      rfl
  | cons q rest ih =>
    obtain ⟨fuel, rfl⟩ := Nat.exists_eq_add_one_of_ne_zero (Nat.ne_zero_of_lt hfuel)
    obtain ⟨index, hp⟩ := h.indexed p (by simp)
    rw [candidates_succ fuel hp, h.pprev hp, ih h.tail (Nat.lt_of_succ_lt_succ hfuel)]
    by_cases hstart : nStart ≤ node.timeOf p
    · rw [if_pos hstart, ← List.map_cons (f := fun q => (node.timeOf q, q))]
      exact congrArg _ (List.takeWhile_cons_of_pos (by simpa using hstart)).symm
    · rw [if_neg hstart, List.takeWhile_cons_of_neg (by simpa using hstart)]
      rfl

end Node

/-! ## The choice of a candidate -/

/-- An order on pairs of a time and a hash. -/
theorem byTimestamp_iff {a b : Int × Uint256} :
    Node.byTimestamp a b = true ↔ a.1 < b.1 ∨ (a.1 = b.1 ∧ a.2 ≤ b.2) := by
  simp [Node.byTimestamp]

theorem byTimestamp_refl (a : Int × Uint256) : Node.byTimestamp a a = true :=
  byTimestamp_iff.mpr (.inr ⟨rfl, Nat.le_refl _⟩)

theorem byTimestamp_total (a b : Int × Uint256) :
    Node.byTimestamp a b = true ∨ Node.byTimestamp b a = true := by
  rw [byTimestamp_iff, byTimestamp_iff]
  rcases lt_trichotomy a.1 b.1 with h | h | h
  · exact .inl (.inl h)
  · rcases Nat.le_total a.2 b.2 with hle | hle
    · exact .inl (.inr ⟨h, hle⟩)
    · exact .inr (.inr ⟨h.symm, hle⟩)
  · exact .inr (.inl h)

theorem byTimestamp_trans {a b c : Int × Uint256} (hab : Node.byTimestamp a b = true)
    (hbc : Node.byTimestamp b c = true) : Node.byTimestamp a c = true := by
  rw [byTimestamp_iff] at hab hbc ⊢
  rcases hab with hab | ⟨hab, hle⟩
  · rcases hbc with hbc | ⟨hbc, -⟩
    · exact .inl (hab.trans hbc)
    · exact .inl (hbc ▸ hab)
  · rcases hbc with hbc | ⟨hbc, hle'⟩
    · exact .inl (hab ▸ hbc)
    · exact .inr ⟨hab.trans hbc, Nat.le_trans hle hle'⟩

theorem byTimestamp_time {a b : Int × Uint256} (h : Node.byTimestamp a b = true) : a.1 ≤ b.1 := by
  rcases byTimestamp_iff.mp h with h | ⟨h, -⟩
  · exact h.le
  · exact h.le

/-- Candidates in the order of their times and hashes, each with its time. -/
structure Candidates (node : Node) (sorted : List (Int × Uint256)) : Prop where
  indexed : ∀ x ∈ sorted, ∃ index, node.index? x.2 = some index ∧ index.getBlockTime = x.1
  ordered : sorted.Pairwise fun x y => Node.byTimestamp x y = true

/-- What `SelectBlockFromCandidates` may answer: a candidate that is not taken yet, the one with
the smallest hash among those in time, or the first one when there is none in time. -/
structure Selected (env : Env) (node : Node) (sorted : List (Int × Uint256))
    (taken : List Uint256) (nStop : Int) (nStakeModifierPrev : Nat) (p : Uint256) : Prop where
  candidate : (node.timeOf p, p) ∈ sorted
  fresh : p ∉ taken
  smallest : node.timeOf p ≤ nStop → ∀ y ∈ sorted, y.2 ∉ taken → y.1 ≤ nStop →
    node.selectionHashAt env nStakeModifierPrev p ≤
      node.selectionHashAt env nStakeModifierPrev y.2
  first : nStop < node.timeOf p → ∀ y ∈ sorted, y.2 ∉ taken →
    Node.byTimestamp (node.timeOf p, p) y = true

namespace Candidates

variable {env : Env} {node : Node} {x : Int × Uint256} {sorted : List (Int × Uint256)}
  {taken : List Uint256} {nStop : Int} {nStakeModifierPrev : Nat}

theorem tail (h : Candidates node (x :: sorted)) : Candidates node sorted where
  indexed y hy := h.indexed y (List.mem_cons_of_mem x hy)
  ordered := (List.pairwise_cons.mp h.ordered).2

theorem timeOf (h : Candidates node sorted) (hx : x ∈ sorted) : node.timeOf x.2 = x.1 := by
  obtain ⟨index, hindex, htime⟩ := h.indexed x hx
  rw [Node.timeOf, hindex]
  exact htime

theorem time_le (h : Candidates node (x :: sorted)) {y : Int × Uint256} (hy : y ∈ x :: sorted) :
    x.1 ≤ y.1 := by
  rcases List.mem_cons.mp hy with rfl | hy
  · exact le_rfl
  · exact byTimestamp_time ((List.pairwise_cons.mp h.ordered).1 y hy)

theorem selectLoop_taken (h : Candidates node (x :: sorted)) {best : Option (Uint256 × Uint256)}
    (hstop : ¬(best.isSome = true ∧ nStop < x.1)) (htaken : x.2 ∈ taken) :
    Node.selectLoop env node taken nStop nStakeModifierPrev best (x :: sorted) =
      Node.selectLoop env node taken nStop nStakeModifierPrev best sorted := by
  obtain ⟨index, hindex, htime⟩ := h.indexed x (by simp)
  rw [Node.selectLoop, hindex]
  exact (if_neg (htime ▸ hstop)).trans (if_pos (List.contains_iff_mem.mpr htaken))

/-- The best candidate after one that is not taken. -/
def better (best : Option (Uint256 × Uint256)) (hash p : Uint256) : Uint256 × Uint256 :=
  match best with
  | none => (hash, p)
  | some (hashBest, pBest) => if hash < hashBest then (hash, p) else (hashBest, pBest)

theorem selectLoop_fresh (h : Candidates node (x :: sorted)) {best : Option (Uint256 × Uint256)}
    (hstop : ¬(best.isSome = true ∧ nStop < x.1)) (hfresh : x.2 ∉ taken) :
    Node.selectLoop env node taken nStop nStakeModifierPrev best (x :: sorted) =
      Node.selectLoop env node taken nStop nStakeModifierPrev
        (some (better best (node.selectionHashAt env nStakeModifierPrev x.2) x.2)) sorted := by
  obtain ⟨index, hindex, htime⟩ := h.indexed x (by simp)
  rw [Node.selectLoop, Node.selectionHashAt, hindex]
  refine (if_neg (htime ▸ hstop)).trans (if_neg ?_)
  exact fun hcontains => hfresh (List.contains_iff_mem.mp hcontains)

/-- The loop of `SelectBlockFromCandidates` once it has a candidate: later ones in time replace
it when their selection hash is smaller. -/
theorem selectLoop_some (env : Env) (taken : List Uint256) (nStop : Int) (nStakeModifierPrev : Nat)
    (h : Candidates node sorted) (hashBest pBest : Uint256) :
    ∃ hash p, Node.selectLoop env node taken nStop nStakeModifierPrev (some (hashBest, pBest))
        sorted = some (some (hash, p)) ∧ hash ≤ hashBest ∧
      (p = pBest ∧ hash = hashBest ∨ ∃ y ∈ sorted, y.2 = p ∧ p ∉ taken ∧ y.1 ≤ nStop ∧
        hash = node.selectionHashAt env nStakeModifierPrev p) ∧
      ∀ y ∈ sorted, y.2 ∉ taken → y.1 ≤ nStop →
        hash ≤ node.selectionHashAt env nStakeModifierPrev y.2 := by
  induction sorted generalizing hashBest pBest with
  | nil => exact ⟨hashBest, pBest, rfl, Nat.le_refl _, .inl ⟨rfl, rfl⟩, by simp⟩
  | cons x sorted ih =>
    by_cases hlate : nStop < x.1
    · -- the loop ends here, and whatever follows is late as well
      refine ⟨hashBest, pBest, ?_, Nat.le_refl _, .inl ⟨rfl, rfl⟩, fun y hy _ hstop => ?_⟩
      · obtain ⟨index, hindex, htime⟩ := h.indexed x (by simp)
        rw [Node.selectLoop, hindex]
        exact if_pos ⟨rfl, htime ▸ hlate⟩
      · exact absurd hlate (not_lt.mpr ((h.time_le hy).trans hstop))
    have hstop : ∀ best : Option (Uint256 × Uint256), ¬(best.isSome = true ∧ nStop < x.1) :=
      fun _ hbreak => hlate hbreak.2
    by_cases htaken : x.2 ∈ taken
    · obtain ⟨hash, p, hrun, hle, hfrom, hleast⟩ := ih h.tail hashBest pBest
      refine ⟨hash, p, (h.selectLoop_taken (hstop _) htaken).trans hrun, hle, ?_, ?_⟩
      · exact hfrom.imp_right fun ⟨y, hy, hrest⟩ => ⟨y, List.mem_cons_of_mem x hy, hrest⟩
      · exact List.forall_mem_cons.mpr ⟨fun hfresh => absurd htaken hfresh, hleast⟩
    · have hfresh : Node.selectLoop env node taken nStop nStakeModifierPrev
          (some (hashBest, pBest)) (x :: sorted) = _ := h.selectLoop_fresh (hstop _) htaken
      generalize hx : node.selectionHashAt env nStakeModifierPrev x.2 = hashX at hfresh
      rw [hfresh]
      by_cases hsmaller : hashX < hashBest
      · rw [better, if_pos hsmaller]
        obtain ⟨hash, p, hrun, hle, hfrom, hleast⟩ := ih h.tail hashX x.2
        refine ⟨hash, p, hrun, hle.trans hsmaller.le, .inr ?_, ?_⟩
        · rcases hfrom with ⟨rfl, rfl⟩ | ⟨y, hy, hrest⟩
          · exact ⟨x, by simp, rfl, htaken, not_lt.mp hlate, hx.symm⟩
          · exact ⟨y, List.mem_cons_of_mem x hy, hrest⟩
        · exact List.forall_mem_cons.mpr ⟨fun _ _ => hx ▸ hle, hleast⟩
      · rw [better, if_neg hsmaller]
        obtain ⟨hash, p, hrun, hle, hfrom, hleast⟩ := ih h.tail hashBest pBest
        refine ⟨hash, p, hrun, hle, ?_, ?_⟩
        · exact hfrom.imp_right fun ⟨y, hy, hrest⟩ => ⟨y, List.mem_cons_of_mem x hy, hrest⟩
        · exact List.forall_mem_cons.mpr ⟨fun _ _ => hx ▸ hle.trans (not_lt.mp hsmaller), hleast⟩

/-- The whole loop, when a candidate is left. -/
theorem selectLoop_none (h : Candidates node sorted) (hleft : ∃ y ∈ sorted, y.2 ∉ taken) :
    ∃ hash p, Node.selectLoop env node taken nStop nStakeModifierPrev none sorted =
        some (some (hash, p)) ∧
      Selected env node sorted taken nStop nStakeModifierPrev p := by
  induction sorted with
  | nil => exact absurd hleft (by simp)
  | cons x sorted ih =>
    have hstop : ¬((none : Option (Uint256 × Uint256)).isSome = true ∧ nStop < x.1) := by simp
    have hx : (node.timeOf x.2, x.2) = x := by rw [h.timeOf (by simp)]
    by_cases htaken : x.2 ∈ taken
    · have hleft' : ∃ y ∈ sorted, y.2 ∉ taken := by
        obtain ⟨y, hy, hfresh⟩ := hleft
        rcases List.mem_cons.mp hy with rfl | hy
        · exact absurd htaken hfresh
        · exact ⟨y, hy, hfresh⟩
      obtain ⟨hash, p, hrun, hselected⟩ := ih h.tail hleft'
      refine ⟨hash, p, (h.selectLoop_taken hstop htaken).trans hrun,
        List.mem_cons_of_mem x hselected.candidate, hselected.fresh, fun hin => ?_, fun hlate => ?_⟩
      · exact List.forall_mem_cons.mpr ⟨fun hfresh => absurd htaken hfresh, hselected.smallest hin⟩
      · exact List.forall_mem_cons.mpr ⟨fun hfresh => absurd htaken hfresh, hselected.first hlate⟩
    · obtain ⟨hash, p, hrun, hle, hfrom, hleast⟩ := h.tail.selectLoop_some env taken nStop
        nStakeModifierPrev (node.selectionHashAt env nStakeModifierPrev x.2) x.2
      refine ⟨hash, p, (h.selectLoop_fresh hstop htaken).trans hrun, ?_⟩
      rcases hfrom with ⟨rfl, rfl⟩ | ⟨y, hy, rfl, hfresh, hin, rfl⟩
      · refine ⟨hx ▸ List.mem_cons_self, htaken, fun _ => ?_, fun _ => ?_⟩
        · exact List.forall_mem_cons.mpr ⟨fun _ _ => Nat.le_refl _, hleast⟩
        · rw [hx]
          exact List.forall_mem_cons.mpr ⟨fun _ => byTimestamp_refl x,
            fun y hy _ => (List.pairwise_cons.mp h.ordered).1 y hy⟩
      · have htime := h.timeOf (List.mem_cons_of_mem x hy)
        refine ⟨?_, hfresh, fun _ => ?_, fun hlate => ?_⟩
        · rw [htime]
          exact List.mem_cons_of_mem x hy
        · exact List.forall_mem_cons.mpr ⟨fun _ _ => hle, hleast⟩
        · rw [htime] at hlate
          exact absurd hin (not_le.mpr hlate)

theorem selectBlockFromCandidates_selected (env : Env) (nStop : Int) (nStakeModifierPrev : Nat)
    (h : Candidates node sorted) (hleft : ∃ y ∈ sorted, y.2 ∉ taken) :
    ∃ p, Node.selectBlockFromCandidates env node sorted taken nStop nStakeModifierPrev = some p ∧
      Selected env node sorted taken nStop nStakeModifierPrev p := by
  obtain ⟨hash, p, hrun, hselected⟩ := h.selectLoop_none hleft
  refine ⟨p, ?_, hselected⟩
  rw [Node.selectBlockFromCandidates, hrun]

end Candidates

/-- There is always a candidate left before the last round. -/
theorem exists_not_taken {sorted : List (Int × Uint256)} {taken : List Uint256}
    (hnodup : (sorted.map Prod.snd).Nodup) (hless : taken.length < sorted.length) :
    ∃ y ∈ sorted, y.2 ∉ taken := by
  by_contra hnone
  have hsubset : sorted.map Prod.snd ⊆ taken := by
    intro p hp
    obtain ⟨y, hy, rfl⟩ := List.mem_map.mp hp
    exact Classical.not_not.mp fun hfresh => hnone ⟨y, hy, hfresh⟩
  have hle := (hnodup.subperm hsubset).length_le
  rw [List.length_map] at hle
  exact Nat.not_le_of_lt hless hle

/-! ## The rounds -/

/-- The end of the interval that a round selects from. -/
def roundStop (env : Env) (nStart : Int) (nRound : Nat) : Int :=
  nStart + ((List.range (nRound + 1)).map (getStakeModifierSelectionIntervalSection env)).sum

/-- The entropy bit that a round has contributed. -/
def pickBit (node : Node) (picks : List Uint256) (r : Nat) : Bool :=
  (picks[r]?.map node.entropyAt).getD false

theorem testBit_entropy {node : Node} {p : Uint256} {index : CBlockIndex}
    (hp : node.index? p = some index) (m nRound i : Nat) :
    (m ||| (index.getStakeEntropyBit <<< nRound)).testBit i =
      (m.testBit i || (decide (i = nRound) && node.entropyAt p)) := by
  have hbit : ∀ j, index.getStakeEntropyBit.testBit j = (decide (j = 0) && node.entropyAt p) := by
    intro j
    rw [Node.entropyAt, hp, Option.map_some, Option.getD_some, CBlockIndex.getStakeEntropyBit,
      blockStakeEntropy, show (2 : Nat) = 2 ^ 1 from rfl, Nat.testBit_shiftRight,
      Nat.testBit_shiftRight, Nat.testBit_and, Nat.testBit_and, Nat.testBit_two_pow,
      Nat.testBit_two_pow]
    cases j with
    | zero => simp
    | succ j => simp
  rw [Nat.testBit_or, Nat.testBit_shiftLeft, hbit]
  by_cases hi : i = nRound
  · simp [hi]
  · by_cases hle : nRound ≤ i
    · simp [hi, Nat.sub_ne_zero_of_lt (Nat.lt_of_le_of_ne hle (Ne.symm hi))]
    · simp [hi, hle]

theorem Selected.congr {env : Env} {node : Node} {sorted : List (Int × Uint256)}
    {taken taken' : List Uint256} {nStop : Int} {nStakeModifierPrev : Nat} {p : Uint256}
    (h : Selected env node sorted taken nStop nStakeModifierPrev p)
    (hsame : ∀ q, q ∈ taken' ↔ q ∈ taken) :
    Selected env node sorted taken' nStop nStakeModifierPrev p where
  candidate := h.candidate
  fresh := (hsame p).not.mpr h.fresh
  smallest hin y hy hfresh := h.smallest hin y hy ((hsame _).not.mp hfresh)
  first hlate y hy hfresh := h.first hlate y hy ((hsame _).not.mp hfresh)

theorem roundStop_succ (env : Env) (nStart : Int) (nRound : Nat) :
    roundStop env nStart nRound + getStakeModifierSelectionIntervalSection env (nRound + 1) =
      roundStop env nStart (nRound + 1) := by
  rw [roundStop, roundStop, add_assoc, List.range_succ (n := nRound + 1), List.map_append,
    List.sum_append, List.map_singleton, List.sum_singleton]

/-- Rounds that start with some candidates taken. -/
theorem modifierRounds_spec {node : Node} {sorted : List (Int × Uint256)} (env : Env)
    (nStart : Int) (nStakeModifierPrev : Nat) (h : Candidates node sorted)
    (hnodup : (sorted.map Prod.snd).Nodup) (rounds nRound : Nat) (nStop : Int)
    (taken : List Uint256) (acc : Nat) (hless : taken.length + rounds ≤ sorted.length)
    (hstop : nStop + getStakeModifierSelectionIntervalSection env nRound =
      roundStop env nStart nRound) :
    ∃ picks m, Node.modifierRounds env node sorted nStakeModifierPrev rounds nRound nStop taken
        acc = some m ∧ picks.length = rounds ∧
      (∀ r p, picks[r]? = some p → Selected env node sorted ((picks.take r).reverse ++ taken)
        (roundStop env nStart (nRound + r)) nStakeModifierPrev p) ∧
      ∀ i, m.testBit i =
        (acc.testBit i || (decide (nRound ≤ i) && pickBit node picks (i - nRound))) := by
  induction rounds generalizing nRound nStop taken acc with
  | zero => exact ⟨[], acc, rfl, rfl, by simp, fun i => by simp [pickBit]⟩
  | succ rounds ih =>
    have hleft : taken.length < sorted.length :=
      Nat.lt_of_lt_of_le (Nat.lt_add_of_pos_right rounds.succ_pos) hless
    obtain ⟨p, hp, hselected⟩ := h.selectBlockFromCandidates_selected env
      (nStop + getStakeModifierSelectionIntervalSection env nRound) nStakeModifierPrev
      (exists_not_taken hnodup hleft)
    obtain ⟨index, hindex, -⟩ := h.indexed _ hselected.candidate
    obtain ⟨picks, m, hrun, hlength, hpicks, hbits⟩ := ih (nRound + 1)
      (nStop + getStakeModifierSelectionIntervalSection env nRound) (p :: taken)
      (acc ||| (index.getStakeEntropyBit <<< nRound))
      (by rw [List.length_cons]; exact (Nat.add_right_comm _ 1 _).trans_le hless)
      (by rw [hstop, roundStop_succ])
    refine ⟨p :: picks, m, ?_, congrArg (· + 1) hlength, ?_, fun i => ?_⟩
    · simp only [Node.modifierRounds, hp, hindex]
      exact hrun
    · intro r q hq
      cases r with
      | zero =>
        obtain rfl := Option.some.inj hq
        rw [Nat.add_zero, ← hstop]
        exact hselected
      | succ r =>
        rw [List.take_succ_cons, List.reverse_cons, List.append_assoc, Nat.add_succ,
          ← Nat.succ_add]
        exact hpicks r q hq
    · rw [hbits, testBit_entropy hindex]
      rcases Nat.lt_trichotomy i nRound with hi | rfl | hi
      · simp [Nat.ne_of_lt hi, Nat.not_le_of_lt hi, Nat.not_le_of_lt (Nat.lt_succ_of_lt hi)]
      · simp [pickBit]
      · obtain ⟨j, rfl⟩ := Nat.exists_eq_add_of_lt hi
        have hsub : nRound + j + 1 - nRound = j + 1 := by omega
        have hsub' : nRound + j + 1 - (nRound + 1) = j := by omega
        simp [pickBit, hsub, hsub', Nat.ne_of_gt hi, Nat.le_of_lt hi, Nat.succ_le_of_lt hi]

/-- What the rounds on `n` candidates do: `min(64, n)` different blocks are selected, and each
gives a bit. -/
structure Selection (env : Env) (node : Node) (sorted : List (Int × Uint256)) (nStart : Int)
    (nStakeModifierPrev : Nat) (picks : List Uint256) (nStakeModifierNew : Nat) : Prop where
  length : picks.length = min 64 sorted.length
  nodup : picks.Nodup
  selected : ∀ r p, picks[r]? = some p → Selected env node sorted (picks.take r)
    (roundStop env nStart r) nStakeModifierPrev p
  bits : ∀ r, nStakeModifierNew.testBit r = pickBit node picks r

theorem nodup_of_fresh {picks : List Uint256}
    (h : ∀ r p, picks[r]? = some p → p ∉ picks.take r) : picks.Nodup := by
  rw [List.nodup_iff_getElem?_ne_getElem?]
  intro i j hij hj heq
  refine h j picks[j] (List.getElem?_eq_getElem hj) ?_
  rw [List.getElem?_eq_getElem hj] at heq
  rw [List.mem_take_iff_getElem]
  obtain ⟨hi, hget⟩ := List.getElem?_eq_some_iff.mp heq
  exact ⟨i, by simp [hij, hi], hget⟩

theorem modifierRounds_selection {node : Node} {sorted : List (Int × Uint256)} (env : Env)
    (nStart : Int) (nStakeModifierPrev : Nat) (h : Candidates node sorted)
    (hnodup : (sorted.map Prod.snd).Nodup) :
    ∃ picks m, Node.modifierRounds env node sorted nStakeModifierPrev (min 64 sorted.length) 0 nStart
        [] 0 = some m ∧ Selection env node sorted nStart nStakeModifierPrev picks m := by
  obtain ⟨picks, m, hrun, hlength, hpicks, hbits⟩ := modifierRounds_spec env nStart
    nStakeModifierPrev h hnodup (min 64 sorted.length) 0 nStart [] 0 (by simp) (by simp [roundStop])
  have hselected : ∀ r p, picks[r]? = some p → Selected env node sorted (picks.take r)
      (roundStop env nStart r) nStakeModifierPrev p := by
    intro r p hp
    have hpick := hpicks r p hp
    rw [Nat.zero_add] at hpick
    exact hpick.congr fun q => by simp
  exact ⟨picks, m, hrun, hlength, nodup_of_fresh fun r p hp => (hselected r p hp).fresh, hselected,
    fun i => by simpa using hbits i⟩

/-! ## What the computation looks at -/

/-- The data of a block that the selection reads. -/
def CBlockIndex.modifierData (index : CBlockIndex) : Option Uint256 × Nat × Nat × Uint256 × Nat :=
  (index.pprev, index.nTime, index.nFlags, index.hashProof, index.nStakeModifier)

/-- Two nodes have the same block. -/
def SameBlock (node node' : Node) (p : Uint256) : Prop :=
  (node'.index? p).map CBlockIndex.modifierData = (node.index? p).map CBlockIndex.modifierData

namespace SameBlock

variable {node node' : Node} {p : Uint256}

theorem map {β : Type} (h : SameBlock node node' p)
    (g : Option Uint256 × Nat × Nat × Uint256 × Nat → β) :
    (node'.index? p).map (fun index => g index.modifierData) =
      (node.index? p).map fun index => g index.modifierData := by
  have hg := congrArg (Option.map g) h
  rwa [Option.map_map, Option.map_map] at hg

theorem index {index : CBlockIndex} (h : SameBlock node node' p) (hp : node.index? p = some index) :
    ∃ index', node'.index? p = some index' ∧ index'.modifierData = index.modifierData := by
  rw [SameBlock, hp, Option.map_some] at h
  exact Option.map_eq_some_iff.mp h

theorem timeOf (h : SameBlock node node' p) : node'.timeOf p = node.timeOf p :=
  congrArg (Option.getD · 0) (h.map fun data => (data.2.1 : Int))

theorem generatedAt (h : SameBlock node node' p) : node'.generatedAt p = node.generatedAt p :=
  congrArg (Option.getD · false) (h.map fun data => data.2.2.1.testBit 2)

theorem parent (h : SameBlock node node' p) : node'.parent p = node.parent p := by
  rw [Node.parent, Node.parent]
  cases hp : node.index? p with
  | none =>
    rw [SameBlock, hp, Option.map_none, Option.map_eq_none_iff] at h
    rw [h]
  | some index =>
    obtain ⟨index', hp', hdata⟩ := h.index hp
    rw [hp']
    exact congrArg Prod.fst hdata

theorem selectionHash {env : Env} {nStakeModifierPrev : Nat} {index index' : CBlockIndex}
    (h : index'.modifierData = index.modifierData) :
    Node.selectionHash env nStakeModifierPrev index' =
      Node.selectionHash env nStakeModifierPrev index := by
  obtain ⟨-, -, hflags, hproof, -⟩ : _ ∧ _ ∧ _ ∧ _ ∧ _ := by
    simpa only [CBlockIndex.modifierData, Prod.mk.injEq] using h
  rw [Node.selectionHash, Node.selectionHash, CBlockIndex.isProofOfStake,
    CBlockIndex.isProofOfStake, hflags, hproof]

theorem getBlockTime {index index' : CBlockIndex} (h : index'.modifierData = index.modifierData) :
    index'.getBlockTime = index.getBlockTime :=
  congrArg (fun data => (data.2.1 : Int)) h

theorem getStakeEntropyBit {index index' : CBlockIndex}
    (h : index'.modifierData = index.modifierData) :
    index'.getStakeEntropyBit = index.getStakeEntropyBit :=
  congrArg (fun data => (data.2.2.1 &&& blockStakeEntropy) >>> 1) h

end SameBlock

/-- The path down is the same in a node with the same blocks on it. -/
theorem ModifierChain.of_same {node node' : Node} {chain : List Uint256}
    (h : ModifierChain node chain) (hsame : ∀ p ∈ chain, SameBlock node node' p) :
    ModifierChain node' chain := by
  refine ⟨?_, fun p hp => ?_, fun p hp index' hindex' hroot => ?_⟩
  · have hlineage := h.lineage
    clear h
    induction hlineage with
    | root hroot => exact .root ((hsame _ (by simp)).parent.trans hroot)
    | child hparent _ ih =>
      exact .child ((hsame _ (by simp)).parent.trans hparent)
        (ih fun p hp => hsame p (List.mem_cons_of_mem _ hp))
  · obtain ⟨index, hindex⟩ := h.indexed p hp
    obtain ⟨index', hindex', -⟩ := (hsame p hp).index hindex
    exact ⟨index', hindex'⟩
  · obtain ⟨index, hindex⟩ := h.indexed p hp
    obtain ⟨indexSame, hindexSame, hdata⟩ := (hsame p hp).index hindex
    obtain rfl := Option.some.inj (hindex'.symm.trans hindexSame)
    have hgenerated := h.generated p hp index hindex ((congrArg Prod.fst hdata).symm.trans hroot)
    exact (congrArg (fun data => data.2.2.1.testBit 2) hdata).trans hgenerated

/-- The loop of `SelectBlockFromCandidates` looks at the candidates only. -/
theorem selectLoop_congr {env : Env} {node node' : Node} {sorted : List (Int × Uint256)}
    (taken : List Uint256) (nStop : Int) (nStakeModifierPrev : Nat)
    (best : Option (Uint256 × Uint256)) (hsame : ∀ x ∈ sorted, SameBlock node node' x.2) :
    Node.selectLoop env node' taken nStop nStakeModifierPrev best sorted =
      Node.selectLoop env node taken nStop nStakeModifierPrev best sorted := by
  induction sorted generalizing best with
  | nil => rfl
  | cons x sorted ih =>
    obtain ⟨hx, hsorted⟩ := List.forall_mem_cons.mp hsame
    rw [Node.selectLoop, Node.selectLoop]
    cases hindex : node.index? x.2 with
    | none =>
      rw [SameBlock, hindex, Option.map_none, Option.map_eq_none_iff] at hx
      rw [hx]
    | some index =>
      obtain ⟨index', hindex', hdata⟩ := hx.index hindex
      rw [hindex']
      dsimp only
      rw [SameBlock.getBlockTime hdata, SameBlock.selectionHash hdata]
      congr 1
      exact if_congr Iff.rfl (ih _ hsorted) (ih _ hsorted)

/-- So do the rounds. -/
theorem modifierRounds_congr {env : Env} {node node' : Node} {sorted : List (Int × Uint256)}
    (nStakeModifierPrev : Nat) (hsame : ∀ x ∈ sorted, SameBlock node node' x.2)
    (h : Candidates node sorted) (hnodup : (sorted.map Prod.snd).Nodup) (rounds nRound : Nat)
    (nStop : Int) (taken : List Uint256) (acc : Nat)
    (hless : taken.length + rounds ≤ sorted.length) :
    Node.modifierRounds env node' sorted nStakeModifierPrev rounds nRound nStop taken acc =
      Node.modifierRounds env node sorted nStakeModifierPrev rounds nRound nStop taken acc := by
  induction rounds generalizing nRound nStop taken acc with
  | zero => rfl
  | succ rounds ih =>
    have hleft : taken.length < sorted.length :=
      Nat.lt_of_lt_of_le (Nat.lt_add_of_pos_right rounds.succ_pos) hless
    obtain ⟨p, hp, hselected⟩ := h.selectBlockFromCandidates_selected env
      (nStop + getStakeModifierSelectionIntervalSection env nRound) nStakeModifierPrev
      (exists_not_taken hnodup hleft)
    obtain ⟨index, hindex, -⟩ := h.indexed _ hselected.candidate
    obtain ⟨index', hindex', hdata⟩ := (hsame _ hselected.candidate).index hindex
    have hp' : Node.selectBlockFromCandidates env node' sorted taken
        (nStop + getStakeModifierSelectionIntervalSection env nRound) nStakeModifierPrev =
          some p := by
      rw [← hp, Node.selectBlockFromCandidates, Node.selectBlockFromCandidates,
        selectLoop_congr _ _ _ _ hsame]
    simp only [Node.modifierRounds, hp, hp', hindex, hindex', SameBlock.getStakeEntropyBit hdata]
    exact ih (nRound + 1) _ (p :: taken) _
      (by rw [List.length_cons]; exact (Nat.add_right_comm _ 1 _).trans_le hless)

/-! ## The computation -/

/-- The start of the selection interval. -/
def selectionStart (env : Env) (node : Node) (prev : Uint256) : Int :=
  (node.timeOf prev).tdiv env.nModifierInterval * env.nModifierInterval -
    getStakeModifierSelectionInterval env

/-- The candidates as `ComputeNextStakeModifier` sorts them. -/
def sortedCandidates (env : Env) (node : Node) (prev : Uint256) : List (Int × Uint256) :=
  ((node.candidates (selectionStart env node prev) node.mapBlockIndex.size
    (some prev)).reverse).insertionSort fun a b => Node.byTimestamp a b = true

instance : Std.Total fun a b : Int × Uint256 => Node.byTimestamp a b = true :=
  ⟨byTimestamp_total⟩

instance : IsTrans (Int × Uint256) fun a b => Node.byTimestamp a b = true :=
  ⟨fun _ _ _ => byTimestamp_trans⟩

section

variable {env : Env} {node node' : Node} {prev : Uint256} {rest : List Uint256}

theorem mem_sortedCandidates {x : Int × Uint256} (h : ModifierChain node (prev :: rest))
    (hx : x ∈ sortedCandidates env node prev) : x.2 ∈ prev :: rest ∧ x.1 = node.timeOf x.2 := by
  rw [sortedCandidates, List.mem_insertionSort, List.mem_reverse,
    Node.candidates_chain h h.length_le] at hx
  obtain ⟨q, hq, rfl⟩ := List.mem_map.mp hx
  exact ⟨(List.takeWhile_sublist _).mem hq, rfl⟩

theorem ModifierChain.sorted (h : ModifierChain node (prev :: rest)) :
    Candidates node (sortedCandidates env node prev) := by
  refine ⟨fun x hx => ?_, List.pairwise_insertionSort _ _⟩
  obtain ⟨hmem, htime⟩ := mem_sortedCandidates h hx
  obtain ⟨index, hindex⟩ := h.indexed _ hmem
  refine ⟨index, hindex, ?_⟩
  rw [htime, Node.timeOf, hindex]
  rfl

theorem ModifierChain.nodup_sorted (h : ModifierChain node (prev :: rest)) :
    ((sortedCandidates env node prev).map Prod.snd).Nodup := by
  have hperm := (List.perm_insertionSort (fun a b => Node.byTimestamp a b = true)
    (node.candidates (selectionStart env node prev) node.mapBlockIndex.size
      (some prev)).reverse).trans (List.reverse_perm _)
  rw [sortedCandidates, (hperm.map Prod.snd).nodup_iff, Node.candidates_chain h h.length_le,
    List.map_map, show Prod.snd ∘ (fun q => (node.timeOf q, q)) = id from rfl, List.map_id]
  exact (List.takeWhile_sublist _).nodup h.lineage.nodup_self

/-- What `ComputeNextStakeModifier` does above a block: it hands the last modifier on, or selects
the blocks of a new one. -/
def Selects (env : Env) (node : Node) (prev : Uint256) : Prop :=
  ∃ indexPrev nStakeModifier nModifierTime, node.index? prev = some indexPrev ∧
    node.getLastStakeModifier indexPrev = some (nStakeModifier, nModifierTime) ∧
    (node.computeNextStakeModifier env (some prev) = some (nStakeModifier, false) ∨
      ∃ picks m, node.computeNextStakeModifier env (some prev) = some (m, true) ∧
        Selection env node (sortedCandidates env node prev) (selectionStart env node prev)
          nStakeModifier picks m)

theorem getLastStakeModifier_chain (h : ModifierChain node (prev :: rest)) {indexPrev : CBlockIndex}
    (hprev : node.index? prev = some indexPrev) :
    ∃ q index, (prev :: rest).find? node.generatedAt = some q ∧ node.index? q = some index ∧
      node.getLastStakeModifier indexPrev = some (index.nStakeModifier, index.getBlockTime) := by
  obtain ⟨q, hq, hindex⟩ := Node.lastGenerated_chain h hprev
    (Nat.le_of_succ_le h.length_le)
  refine ⟨q, _, hq, hindex, ?_⟩
  have hgenerated := List.find?_some hq
  rw [Node.generatedAt, hindex] at hgenerated
  rw [Node.getLastStakeModifier]
  exact if_pos hgenerated

theorem computeNextStakeModifier_eq {indexPrev : CBlockIndex} {nStakeModifier : Nat}
    {nModifierTime : Int} (hprev : node.index? prev = some indexPrev)
    (hlast : node.getLastStakeModifier indexPrev = some (nStakeModifier, nModifierTime)) :
    node.computeNextStakeModifier env (some prev) =
      if (node.timeOf prev).tdiv env.nModifierInterval ≤
          nModifierTime.tdiv env.nModifierInterval then some (nStakeModifier, false)
      else (Node.modifierRounds env node (sortedCandidates env node prev) nStakeModifier
        (min 64 (sortedCandidates env node prev).length) 0 (selectionStart env node prev) [] 0).map
          fun m => (m, true) := by
  have htime : indexPrev.getBlockTime = node.timeOf prev := by
    rw [Node.timeOf, hprev]
    rfl
  simp only [Node.computeNextStakeModifier, hprev, hlast, htime]
  rfl

theorem ModifierChain.selects (h : ModifierChain node (prev :: rest)) : Selects env node prev := by
  obtain ⟨indexPrev, hprev⟩ := h.indexed prev (by simp)
  obtain ⟨q, index, -, -, hlast⟩ := getLastStakeModifier_chain h hprev
  refine ⟨indexPrev, _, _, hprev, hlast, ?_⟩
  rw [computeNextStakeModifier_eq hprev hlast]
  split
  · exact .inl rfl
  · obtain ⟨picks, m, hrun, hselection⟩ := modifierRounds_selection env
      (selectionStart env node prev) index.nStakeModifier h.sorted h.nodup_sorted
    exact .inr ⟨picks, m, by rw [hrun]; rfl, hselection⟩

theorem candidates_same {chain : List Uint256} (nStart : Int)
    (htime : ∀ p ∈ chain, node'.timeOf p = node.timeOf p) :
    ((chain.takeWhile fun q => decide (nStart ≤ node'.timeOf q)).map fun q => (node'.timeOf q, q)) =
      (chain.takeWhile fun q => decide (nStart ≤ node.timeOf q)).map fun q => (node.timeOf q, q) := by
  induction chain with
  | nil => rfl
  | cons p chain ih =>
    obtain ⟨hp, hchain⟩ := List.forall_mem_cons.mp htime
    rw [List.takeWhile_cons, List.takeWhile_cons, hp]
    split
    · rw [List.map_cons, List.map_cons, hp, ih hchain]
    · rfl

/-- The computation looks at nothing but the chain. -/
theorem ModifierChain.computeNextStakeModifier_same (h : ModifierChain node (prev :: rest))
    (hsame : ∀ p ∈ prev :: rest, SameBlock node node' p) :
    node'.computeNextStakeModifier env (some prev) =
      node.computeNextStakeModifier env (some prev) := by
  have h' := h.of_same hsame
  obtain ⟨indexPrev, hprev⟩ := h.indexed prev (by simp)
  obtain ⟨indexPrev', hprev', -⟩ := (hsame prev (by simp)).index hprev
  obtain ⟨q, index, hq, hindex, hlast⟩ := getLastStakeModifier_chain h hprev
  obtain ⟨q', index', hq', hindex', hlast'⟩ := getLastStakeModifier_chain h' hprev'
  rw [List.find?_congr fun p hp => (hsame p hp).generatedAt, hq] at hq'
  obtain rfl := Option.some.inj hq'
  obtain ⟨indexSame, hindexSame, hdata⟩ :=
    (hsame q (List.mem_of_find?_eq_some hq)).index hindex
  obtain rfl := Option.some.inj (hindex'.symm.trans hindexSame)
  have htime := (hsame prev (by simp)).timeOf
  have hstart : selectionStart env node' prev = selectionStart env node prev := by
    rw [selectionStart, selectionStart, htime]
  have hsorted : sortedCandidates env node' prev = sortedCandidates env node prev := by
    rw [sortedCandidates, sortedCandidates, hstart, Node.candidates_chain h h.length_le,
      Node.candidates_chain h' h'.length_le,
      candidates_same _ fun p hp => (hsame p hp).timeOf]
  rw [computeNextStakeModifier_eq hprev' hlast', computeNextStakeModifier_eq hprev hlast, htime,
    hstart, hsorted, SameBlock.getBlockTime hdata,
    show index'.nStakeModifier = index.nStakeModifier from
      congrArg (fun data => data.2.2.2.2) hdata,
    modifierRounds_congr _ (fun x hx => hsame x.2 (mem_sortedCandidates h hx).1) h.sorted
      h.nodup_sorted _ _ _ _ _ (by simp)]

end

/-- Above every block of the index, and on every chain that ends in a block with a modifier, the
computation answers and depends on the chain alone. -/
theorem computeNextStakeModifier_selects (env : Env) :
    (∀ w, Reaches env w → ∀ prev indexPrev, w.node.index? prev = some indexPrev →
      ∃ rest, ModifierChain w.node (prev :: rest)) ∧
    ∀ node prev rest, ModifierChain node (prev :: rest) → Selects env node prev ∧
      ∀ node', (∀ p ∈ prev :: rest, SameBlock node node' p) →
        node'.computeNextStakeModifier env (some prev) =
          node.computeNextStakeModifier env (some prev) :=
  ⟨fun _ hreaches _ _ hprev => hreaches.modifierChain hprev,
    fun _ _ _ h => ⟨h.selects, fun _ hsame => h.computeNextStakeModifier_same hsame⟩⟩

/-- A first block with a modifier, and a second one twenty minutes later. -/
def twoBlocks : Node :=
  let first := { CBlockIndex.ofBlock 1 8 (genesisBlock mainNet) with nFlags := blockStakeModifier }
  { Node.initial with
    mapBlockIndex := ((∅ : Map Uint256 CBlockIndex).insert 1 first).insert 2
      { first with
        pprev := some 1
        nTime := first.nTime + 20 * 60
        nFlags := blockStakeEntropy } }

theorem twoBlocks_chain : ModifierChain twoBlocks [2, 1] where
  lineage := .child (by decide +kernel) (.root (by decide +kernel))
  indexed p hp := by
    refine Option.isSome_iff_exists.mp ?_
    revert p hp
    decide +kernel
  generated p hp index hindex hroot := by
    have hall : ∀ p ∈ [2, 1], ∀ index ∈ (twoBlocks.index? p).toList, index.pprev = none →
        index.generatedStakeModifier = true := by decide +kernel
    exact hall p hp index (by rw [hindex]; simp) hroot

theorem computeNextStakeModifier_selects_twoBlocks :
    Selects mainNet twoBlocks 2 ∧
      twoBlocks.computeNextStakeModifier mainNet (some 2) = some (2, true) :=
  ⟨((computeNextStakeModifier_selects mainNet).2 twoBlocks 2 [1] twoBlocks_chain).1,
    by decide +kernel⟩

end NoLimitCoin
