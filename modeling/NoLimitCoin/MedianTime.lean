import NoLimitCoin.ProcessBlock
import NoLimitCoin.Lib.OrderStatistic

/-!
# Median time past

`GetMedianTimePast` sorts the times of a block and of up to ten blocks below it and takes the one in
the middle.  A block on top replaces the oldest time, or adds one, by a time above the median.

Results:
1. `getPastTimeLimit_mono`: the median of a block is not below the median of its parent.
2. `getPastTimeLimit_descendants`: nor below the median of any block under it.
3. `AboveMedian.of_checkContext`: the rule is what `AcceptBlock` checks.
-/

namespace NoLimitCoin

/-- The block below, by the pointer of the index object. -/
def indexBelow (node : Node) (index : CBlockIndex) : Option CBlockIndex :=
  index.pprev.bind node.index?

/-- The rule of `AcceptBlock`: the time of a block is above the median below it. -/
def AboveMedian (node : Node) (indexPrev index : CBlockIndex) : Prop :=
  indexBelow node index = some indexPrev ∧ getPastTimeLimit node indexPrev < index.getBlockTime

/-- The rule is among the checks of `AcceptBlock`. -/
theorem AboveMedian.of_checkContext {env : Env} {node : Node} {indexPrev index : CBlockIndex}
    {block : CBlock} (haccept : block.checkContext env node indexPrev = .ok ())
    (hbelow : indexBelow node index = some indexPrev)
    (htime : index.getBlockTime = block.getBlockTime) : AboveMedian node indexPrev index := by
  simp only [CBlock.checkContext, except_seq_eq_ok, require_eq_ok, Bool.and_eq_true,
    decide_eq_true_eq] at haccept
  obtain ⟨-, -, -, ⟨habove, -⟩, -⟩ := haccept
  exact ⟨hbelow, by rw [htime]; exact habove⟩

theorem medianTimes_length_pos (node : Node) (index : CBlockIndex) :
    0 < (medianTimes node 11 (some index)).length := Nat.succ_pos _

/-- One block less is one time less, unless the chain is shorter. -/
theorem medianTimes_take (node : Node) (fuel : Nat) (index : Option CBlockIndex) :
    medianTimes node fuel index = (medianTimes node (fuel + 1) index).take fuel := by
  induction fuel generalizing index with
  | zero => rfl
  | succ fuel ih =>
    cases index with
    | none => rfl
    | some index =>
      rw [medianTimes, medianTimes, List.take_succ_cons, ← ih]

/-- The window of a block: its own time before the window below it, without the eleventh. -/
theorem medianTimes_above {node : Node} {indexPrev index : CBlockIndex}
    (hbelow : indexBelow node index = some indexPrev) :
    medianTimes node 11 (some index) =
      index.getBlockTime :: (medianTimes node 11 (some indexPrev)).take 10 := by
  rw [← medianTimes_take, ← hbelow]
  rfl

theorem medianTimes_length_le (node : Node) (fuel : Nat) (index : Option CBlockIndex) :
    (medianTimes node fuel index).length ≤ fuel := by
  induction fuel generalizing index with
  | zero => exact Nat.le_refl 0
  | succ fuel ih =>
    cases index with
    | none => exact Nat.zero_le _
    | some index => exact Nat.succ_le_succ (ih _)

/-- The median is what stands in the middle of the sorted window. -/
theorem getPastTimeLimit_getElem? (node : Node) (index : CBlockIndex) :
    ((medianTimes node 11 (some index)).insertionSort (· ≤ ·))[
      (medianTimes node 11 (some index)).length / 2]? = some (getPastTimeLimit node index) := by
  have hpos := medianTimes_length_pos node index
  unfold getPastTimeLimit
  dsimp only
  rw [List.length_insertionSort]
  have hlt : (medianTimes node 11 (some index)).length / 2 <
      ((medianTimes node 11 (some index)).insertionSort (· ≤ ·)).length := by
    rw [List.length_insertionSort]
    omega
  rw [List.getElem?_eq_getElem hlt]
  rfl

/-- The median of a block is not below the median of its parent. -/
theorem getPastTimeLimit_mono {node : Node} {indexPrev index : CBlockIndex}
    (h : AboveMedian node indexPrev index) :
    getPastTimeLimit node indexPrev ≤ getPastTimeLimit node index := by
  obtain ⟨hbelow, habove⟩ := h
  refine OrderStatistic.sorted_mono (getPastTimeLimit_getElem? node indexPrev)
    (getPastTimeLimit_getElem? node index) ?_ ?_
  · -- the new time is not below the median, and a time that is dropped can only help
    rw [medianTimes_above hbelow, List.countP_cons, if_neg, Nat.add_zero]
    · exact (List.take_sublist _ _).countP_le
    · rw [decide_eq_true_eq, not_lt]
      exact Int.le_of_lt habove
  · have hlen := medianTimes_length_le node 11 (some indexPrev)
    rw [medianTimes_above hbelow, List.length_cons, List.length_take]
    omega

/-- What is in the past of a block stays in the past of all blocks above it. -/
theorem getPastTimeLimit_descendants {node : Node} {index later : CBlockIndex}
    (h : Relation.ReflTransGen (AboveMedian node) index later) :
    getPastTimeLimit node index ≤ getPastTimeLimit node later := by
  induction h with
  | refl => exact Int.le_refl _
  | tail _ hstep ih => exact ih.trans (getPastTimeLimit_mono hstep)

/-- The median never decreases along a chain, and a time that it has passed stays passed. -/
theorem medianTimePast_monotone (node : Node) :
    (∀ indexPrev index, AboveMedian node indexPrev index →
      getPastTimeLimit node indexPrev ≤ getPastTimeLimit node index) ∧
    ∀ index later, Relation.ReflTransGen (AboveMedian node) index later →
      ∀ nTime : Int, (nTime ≤ getPastTimeLimit node index → nTime ≤ getPastTimeLimit node later) ∧
        (nTime < getPastTimeLimit node index → nTime < getPastTimeLimit node later) :=
  ⟨fun _ _ => getPastTimeLimit_mono, fun _ _ h _ =>
    ⟨fun hle => hle.trans (getPastTimeLimit_descendants h),
      fun hlt => hlt.trans_le (getPastTimeLimit_descendants h)⟩⟩

def firstIndex : CBlockIndex := CBlockIndex.ofBlock 1 8 ⟨1, 0, 0, 100, 0, 0, [], []⟩

/-- A block on the first block, a second later. -/
def secondIndex : CBlockIndex :=
  { CBlockIndex.ofBlock 1 8 ⟨1, 0, 0, 101, 0, 0, [], []⟩ with pprev := some 7 }

def timedBlocks : Node :=
  { Node.initial with mapBlockIndex := (∅ : Map Uint256 CBlockIndex).insert 7 firstIndex }

theorem medianTimePast_monotone_sample :
    getPastTimeLimit timedBlocks firstIndex ≤ getPastTimeLimit timedBlocks secondIndex :=
  (medianTimePast_monotone timedBlocks).1 _ _ ⟨by decide +kernel, by decide +kernel⟩

end NoLimitCoin
