import Mathlib.Data.List.Sort
import Mathlib.Data.List.Infix
import Mathlib.Algebra.Order.Ring.Int
import Mathlib.Tactic.IntervalCases

/-!
# Network time

`CMedianFilter` of `util.h` keeps the last values of a stream, `AddTimeData` of `util.cpp` feeds it
the clocks of the peers and sets the time offset from its median when the number of values is odd.

Results:
1. `vValues_run`: the filter holds the last values, sorted and unsorted.
2. `follows_run`: the offset follows the median as long as the filter is not full.
3. `nTimeOffset_full`: once it is full, no call changes the offset any more.
-/

namespace NoLimitCoin

/-! ## The filter -/

/-- `CMedianFilter<int64_t>`. -/
structure CMedianFilter where
  nSize : Nat
  vValues : List Int
  vSorted : List Int
  deriving DecidableEq

namespace CMedianFilter

def new (size : Nat) (initial_value : Int) : CMedianFilter :=
  ⟨size, [initial_value], [initial_value]⟩

def input (filter : CMedianFilter) (value : Int) : CMedianFilter :=
  let vValues :=
    if filter.vValues.length = filter.nSize then filter.vValues.tail else filter.vValues
  { filter with
    vValues := vValues ++ [value]
    vSorted := (vValues ++ [value]).insertionSort (· ≤ ·) }

/-- `median`, with the sum in the type of the values. -/
def median (filter : CMedianFilter) : Int :=
  let size := filter.vSorted.length
  if size % 2 = 1 then filter.vSorted.getD (size / 2) 0
  else
    (Int.bmod (filter.vSorted.getD (size / 2 - 1) 0 + filter.vSorted.getD (size / 2) 0)
      (2 ^ 64)).tdiv 2

def size (filter : CMedianFilter) : Nat := filter.vValues.length

def sorted (filter : CMedianFilter) : List Int := filter.vSorted

end CMedianFilter

/-! ## The offset -/

/-- `abs64`. -/
def abs64 (n : Int) : Int := if 0 ≤ n then n else Int.bmod (-n) (2 ^ 64)

variable {α : Type}

/-- What `AddTimeData` keeps, its two static variables among it. -/
structure TimeData (α : Type) where
  setKnown : List α
  vTimeOffsets : CMedianFilter
  nTimeOffset : Int
  fDone : Bool
  strMiscWarning : String

def TimeData.start : TimeData α := ⟨[], .new 200 0, 0, false, ""⟩

/-- A call of `AddTimeData`, with the value of `GetTime`. -/
structure TimeCall (α : Type) where
  ip : α
  nTime : Int
  getTime : Int
  deriving DecidableEq

def TimeCall.nOffsetSample (call : TimeCall α) : Int := Int.bmod (call.nTime - call.getTime) (2 ^ 64)

def clockWarning : String :=
  "Warning: Please check that your computer's date and time are correct! " ++
    "If your clock is wrong NoLimitCoin will not work properly."

/-- The part of `AddTimeData` behind its gate. -/
def TimeData.recompute (state : TimeData α) : TimeData α :=
  let nMedian := state.vTimeOffsets.median
  let vSorted := state.vTimeOffsets.sorted
  if abs64 nMedian < 70 * 60 then { state with nTimeOffset := nMedian }
  else
    let fMatch := vSorted.any fun nOffset => decide (nOffset ≠ 0 ∧ abs64 nOffset < 5 * 60)
    if ¬ state.fDone ∧ ¬ fMatch then
      { state with nTimeOffset := 0, fDone := true, strMiscWarning := clockWarning }
    else { state with nTimeOffset := 0 }

/-- `AddTimeData`. -/
def addTimeData [DecidableEq α] (state : TimeData α) (call : TimeCall α) : TimeData α :=
  if call.ip ∈ state.setKnown then state
  else
    let state :=
      { state with
        setKnown := call.ip :: state.setKnown
        vTimeOffsets := state.vTimeOffsets.input call.nOffsetSample }
    if 5 ≤ state.vTimeOffsets.size ∧ state.vTimeOffsets.size % 2 = 1 then state.recompute
    else state

/-- The state after calls, the first one first. -/
def timeRun [DecidableEq α] (calls : List (TimeCall α)) : TimeData α :=
  calls.foldl addTimeData .start

/-! ## The gate -/

/-- An offset that other nodes may set. -/
def limitOffset (n : Int) : Int := if |n| < 70 * 60 then n else 0

theorem abs64_lt_iff {n : Int} (h : -2 ^ 63 < n) : abs64 n < 70 * 60 ↔ |n| < 70 * 60 := by
  unfold abs64
  split
  · next hnonneg => rw [abs_of_nonneg hnonneg]
  · next hneg =>
    rw [abs_of_neg (not_le.mp hneg)]
    by_cases hlarge : -n < 2 ^ 63
    · rw [Int.bmod_eq_of_le (by omega) (by omega)]
    · omega

namespace TimeData

theorem recompute_vTimeOffsets (state : TimeData α) :
    state.recompute.vTimeOffsets = state.vTimeOffsets := by
  unfold recompute
  dsimp only
  split
  · rfl
  · split
    · rfl
    · rfl

theorem recompute_setKnown (state : TimeData α) : state.recompute.setKnown = state.setKnown := by
  unfold recompute
  dsimp only
  split
  · rfl
  · split
    · rfl
    · rfl

theorem recompute_nTimeOffset {state : TimeData α} (h : -2 ^ 63 < state.vTimeOffsets.median) :
    state.recompute.nTimeOffset = limitOffset state.vTimeOffsets.median := by
  unfold recompute limitOffset
  dsimp only
  split
  · next hsmall => rw [if_pos ((abs64_lt_iff h).mp hsmall)]
  · next hlarge =>
    rw [if_neg fun hsmall => hlarge ((abs64_lt_iff h).mpr hsmall)]
    split
    · rfl
    · rfl

end TimeData

/-! ## What it is for -/

/-- The last entries of a list. -/
def lastEntries (size : Nat) (entries : List Int) : List Int :=
  entries.drop (entries.length - size)

theorem lastEntries_length (size : Nat) (entries : List Int) :
    (lastEntries size entries).length = min entries.length size := by
  rw [lastEntries, List.length_drop]
  omega

/-- The entry in the middle, or the mean of the two in the middle. -/
def middle (entries : List Int) : Int :=
  let sorted := entries.insertionSort (· ≤ ·)
  if entries.length % 2 = 1 then sorted.getD (entries.length / 2) 0
  else (sorted.getD (entries.length / 2 - 1) 0 + sorted.getD (entries.length / 2) 0).tdiv 2

/-- The samples that the filter should hold after calls, the initial zero among them. -/
def currentWindow (calls : List (TimeCall α)) : List Int :=
  lastEntries 200 (0 :: calls.map TimeCall.nOffsetSample)

theorem currentWindow_length (calls : List (TimeCall α)) :
    (currentWindow calls).length = min (calls.length + 1) 200 := by
  rw [currentWindow, lastEntries_length, List.length_cons, List.length_map]

/-- What is expected after calls from distinct peers. -/
structure FollowsMedian [DecidableEq α] (calls : List (TimeCall α)) : Prop where
  limited : |(timeRun calls).nTimeOffset| < 70 * 60
  sorted : (timeRun calls).vTimeOffsets.sorted = (currentWindow calls).insertionSort (· ≤ ·)
  median : (timeRun calls).vTimeOffsets.median = middle (currentWindow calls)
  /-- The last call, or the one before it, has set the offset from the median of its window. -/
  recomputed : 5 ≤ calls.length →
    (timeRun calls).nTimeOffset = limitOffset (middle (currentWindow calls)) ∨
      (timeRun calls).nTimeOffset = limitOffset (middle (currentWindow calls.dropLast))

/-- The entries in the middle can be added, or negated, within their type. -/
structure MiddleFits (entries : List Int) : Prop where
  odd : entries.length % 2 = 1 →
    -2 ^ 63 < (entries.insertionSort (· ≤ ·)).getD (entries.length / 2) 0
  even : entries.length % 2 ≠ 1 →
    -2 ^ 63 ≤ (entries.insertionSort (· ≤ ·)).getD (entries.length / 2 - 1) 0 +
        (entries.insertionSort (· ≤ ·)).getD (entries.length / 2) 0 ∧
      (entries.insertionSort (· ≤ ·)).getD (entries.length / 2 - 1) 0 +
        (entries.insertionSort (· ≤ ·)).getD (entries.length / 2) 0 < 2 ^ 63

/-- The condition of a call: the filter is not full, and the middle of its entries and of the new
sample fits. -/
structure CallFits (state : TimeData α) (call : TimeCall α) : Prop where
  room : state.vTimeOffsets.size < 200
  middle : MiddleFits (state.vTimeOffsets.vValues ++ [call.nOffsetSample])

/-! ## The filter holds the last values -/

theorem lastEntries_snoc {size : Nat} (hsize : 0 < size) (entries : List Int) (n : Int) :
    lastEntries size (entries ++ [n]) =
      (if (lastEntries size entries).length = size then (lastEntries size entries).tail
        else lastEntries size entries) ++ [n] := by
  rw [lastEntries_length]
  unfold lastEntries
  rw [List.length_append, List.length_singleton, List.drop_append_of_le_length (by omega)]
  congr 1
  split
  · next hfull =>
    rw [List.tail_drop]
    congr 1
    omega
  · next hroom =>
    congr 1
    omega

namespace CMedianFilter

/-- What `input` keeps of the last values. -/
structure Holds (filter : CMedianFilter) (size : Nat) (entries : List Int) : Prop where
  nSize : filter.nSize = size
  vValues : filter.vValues = lastEntries size entries
  vSorted : filter.vSorted = filter.vValues.insertionSort (· ≤ ·)

theorem holds_new {size : Nat} (hsize : 0 < size) (initial_value : Int) :
    (new size initial_value).Holds size [initial_value] := by
  refine ⟨rfl, ?_, rfl⟩
  rw [lastEntries, List.length_singleton, Nat.sub_eq_zero_of_le hsize]
  rfl

theorem Holds.input {filter : CMedianFilter} {size : Nat} {entries : List Int}
    (h : filter.Holds size entries) (hsize : 0 < size) (value : Int) :
    (filter.input value).Holds size (entries ++ [value]) := by
  refine ⟨h.nSize, ?_, rfl⟩
  rw [lastEntries_snoc hsize, ← h.vValues, ← h.nSize]
  rfl

theorem Holds.median {filter : CMedianFilter} {size : Nat} {entries : List Int}
    (h : filter.Holds size entries) (hfits : MiddleFits (lastEntries size entries)) :
    filter.median = middle (lastEntries size entries) := by
  have hlen : filter.vSorted.length = (lastEntries size entries).length := by
    rw [h.vSorted, List.length_insertionSort, h.vValues]
  unfold CMedianFilter.median middle
  dsimp only
  rw [hlen, h.vSorted, h.vValues]
  split
  · rfl
  · next heven =>
    obtain ⟨hlow, hhigh⟩ := hfits.even heven
    rw [Int.bmod_eq_of_le (by omega) (by omega)]

end CMedianFilter

/-! ## One call -/

variable [DecidableEq α]

theorem limitOffset_lt (n : Int) : |limitOffset n| < 70 * 60 := by
  unfold limitOffset
  split
  · assumption
  · decide

/-- A call from a peer that is known already changes nothing. -/
theorem addTimeData_known {state : TimeData α} {call : TimeCall α}
    (h : call.ip ∈ state.setKnown) : addTimeData state call = state := if_pos h

/-- What a call from a new peer does to the filter and the known peers. -/
theorem addTimeData_new {state : TimeData α} {call : TimeCall α} (h : call.ip ∉ state.setKnown) :
    (addTimeData state call).vTimeOffsets = state.vTimeOffsets.input call.nOffsetSample ∧
      (addTimeData state call).setKnown = call.ip :: state.setKnown := by
  rw [addTimeData, if_neg h]
  dsimp only
  split
  · rw [TimeData.recompute_vTimeOffsets, TimeData.recompute_setKnown]
    exact ⟨rfl, rfl⟩
  · exact ⟨rfl, rfl⟩

theorem addTimeData_nTimeOffset {state : TimeData α} {call : TimeCall α}
    (h : call.ip ∉ state.setKnown) :
    (addTimeData state call).nTimeOffset =
      if 5 ≤ (state.vTimeOffsets.input call.nOffsetSample).size ∧
          (state.vTimeOffsets.input call.nOffsetSample).size % 2 = 1 then
        (TimeData.recompute { state with
          setKnown := call.ip :: state.setKnown
          vTimeOffsets := state.vTimeOffsets.input call.nOffsetSample }).nTimeOffset
      else state.nTimeOffset := by
  rw [addTimeData, if_neg h]
  dsimp only
  split
  · rfl
  · rfl

/-! ## Runs -/

/-- What calls from distinct peers have made of the filter and the known peers. -/
structure Fed (calls : List (TimeCall α)) : Prop where
  setKnown : ∀ ip, ip ∈ (timeRun calls).setKnown ↔ ip ∈ calls.map TimeCall.ip
  holds : (timeRun calls).vTimeOffsets.Holds 200 (0 :: calls.map TimeCall.nOffsetSample)

theorem timeRun_append (calls more : List (TimeCall α)) :
    timeRun (calls ++ more) = more.foldl addTimeData (timeRun calls) := List.foldl_append

theorem timeRun_snoc (calls : List (TimeCall α)) (call : TimeCall α) :
    timeRun (calls ++ [call]) = addTimeData (timeRun calls) call := timeRun_append calls [call]

theorem fed_run {calls : List (TimeCall α)} (hdistinct : (calls.map TimeCall.ip).Nodup) :
    Fed calls := by
  induction calls using List.reverseRecOn with
  | nil => exact ⟨fun _ => Iff.rfl, CMedianFilter.holds_new (by decide) 0⟩
  | append_singleton calls call ih =>
    rw [List.map_append, List.map_singleton, List.nodup_append] at hdistinct
    obtain ⟨hcalls, -, hnew⟩ := hdistinct
    obtain ⟨hknown, hholds⟩ := ih hcalls
    have hip : call.ip ∉ (timeRun calls).setKnown := fun hmem =>
      hnew call.ip ((hknown _).mp hmem) call.ip (List.mem_singleton.mpr rfl) rfl
    obtain ⟨hfilter, hset⟩ := addTimeData_new hip
    refine ⟨fun ip => ?_, ?_⟩
    · rw [timeRun_snoc, hset, List.mem_cons, hknown, List.map_append, List.map_singleton,
        List.mem_append, List.mem_singleton, or_comm]
    · rw [timeRun_snoc, hfilter, List.map_append, List.map_singleton, ← List.cons_append]
      exact hholds.input (by decide) _

theorem Fed.vValues {calls : List (TimeCall α)} (h : Fed calls) :
    (timeRun calls).vTimeOffsets.vValues = currentWindow calls := h.holds.vValues

theorem Fed.sorted {calls : List (TimeCall α)} (h : Fed calls) :
    (timeRun calls).vTimeOffsets.sorted = (currentWindow calls).insertionSort (· ≤ ·) := by
  rw [CMedianFilter.sorted, h.holds.vSorted, h.vValues]

theorem Fed.median {calls : List (TimeCall α)} (h : Fed calls)
    (hfits : MiddleFits (currentWindow calls)) :
    (timeRun calls).vTimeOffsets.median = middle (currentWindow calls) := by
  unfold currentWindow at hfits ⊢
  rw [h.holds.median hfits]

/-- A call that fits, after which the filter holds one value more. -/
theorem currentWindow_snoc {calls : List (TimeCall α)} (call : TimeCall α) (h : Fed calls)
    (hroom : (timeRun calls).vTimeOffsets.size < 200) :
    currentWindow (calls ++ [call]) = currentWindow calls ++ [call.nOffsetSample] := by
  rw [CMedianFilter.size, h.vValues] at hroom
  rw [currentWindow, List.map_append, List.map_singleton, ← List.cons_append,
    lastEntries_snoc (by decide), if_neg]
  · rfl
  · exact Nat.ne_of_lt hroom

theorem MiddleFits.lt_middle {entries : List Int} (h : MiddleFits entries)
    (hodd : entries.length % 2 = 1) : -2 ^ 63 < middle entries := by
  rw [middle, if_pos hodd]
  exact h.odd hodd

/-- The new window, when the filter is not full and the middle fits. -/
theorem CallFits.window {calls : List (TimeCall α)} {call : TimeCall α}
    (h : CallFits (timeRun calls) call) (hfed : Fed calls) :
    currentWindow (calls ++ [call]) = currentWindow calls ++ [call.nOffsetSample] ∧
      MiddleFits (currentWindow (calls ++ [call])) := by
  have hwindow := currentWindow_snoc call hfed h.room
  refine ⟨hwindow, ?_⟩
  rw [hwindow, ← hfed.vValues]
  exact h.middle

/-- The offset after a call that fits. -/
theorem nTimeOffset_snoc {calls : List (TimeCall α)} {call : TimeCall α}
    (hdistinct : ((calls ++ [call]).map TimeCall.ip).Nodup)
    (hfits : CallFits (timeRun calls) call) :
    (timeRun (calls ++ [call])).nTimeOffset =
      if 3 ≤ calls.length ∧ calls.length % 2 = 1 then
        limitOffset (middle (currentWindow (calls ++ [call])))
      else (timeRun calls).nTimeOffset := by
  have hnext := fed_run hdistinct
  rw [List.map_append, List.map_singleton, List.nodup_append] at hdistinct
  obtain ⟨hcalls, -, hnew⟩ := hdistinct
  have hfed := fed_run hcalls
  have hip : call.ip ∉ (timeRun calls).setKnown := fun hmem =>
    hnew call.ip ((hfed.setKnown _).mp hmem) call.ip (List.mem_singleton.mpr rfl) rfl
  obtain ⟨hwindow, hmiddle⟩ := hfits.window hfed
  have hroom := hfits.room
  have hinput : (timeRun calls).vTimeOffsets.input call.nOffsetSample =
      (timeRun (calls ++ [call])).vTimeOffsets := by
    rw [timeRun_snoc, (addTimeData_new hip).1]
  have hlen : (currentWindow (calls ++ [call])).length = calls.length + 2 := by
    rw [CMedianFilter.size, hfed.vValues, currentWindow_length] at hroom
    rw [hwindow, List.length_append, currentWindow_length, List.length_singleton]
    omega
  have hsize : (timeRun (calls ++ [call])).vTimeOffsets.size = calls.length + 2 := by
    rw [CMedianFilter.size, hnext.vValues, hlen]
  rw [timeRun_snoc, addTimeData_nTimeOffset hip, hinput, hsize]
  by_cases hgate : 3 ≤ calls.length ∧ calls.length % 2 = 1
  · rw [if_pos (by omega), if_pos hgate]
    have hmedian := hnext.median hmiddle
    have hlow := hmiddle.lt_middle (by rw [hlen]; omega)
    rw [← hmedian] at hlow ⊢
    refine TimeData.recompute_nTimeOffset ?_
    exact hlow
  · rw [if_neg (by omega), if_neg hgate]

/-- The property after one more call. -/
theorem follows_snoc {calls : List (TimeCall α)} {call : TimeCall α}
    (hdistinct : ((calls ++ [call]).map TimeCall.ip).Nodup)
    (hfits : CallFits (timeRun calls) call) (hcalls : |(timeRun calls).nTimeOffset| < 70 * 60)
    (hbefore : ∀ calls' call', calls = calls' ++ [call'] → CallFits (timeRun calls') call') :
    FollowsMedian (calls ++ [call]) := by
  have hnext := fed_run hdistinct
  have hoffset := nTimeOffset_snoc hdistinct hfits
  have hfed : Fed calls := by
    rw [List.map_append, List.nodup_append] at hdistinct
    exact fed_run hdistinct.1
  obtain ⟨-, hmiddle⟩ := hfits.window hfed
  refine ⟨?_, hnext.sorted, hnext.median hmiddle, fun hlength => ?_⟩
  · rw [hoffset]
    split
    · exact limitOffset_lt _
    · exact hcalls
  · rw [hoffset]
    split
    · exact .inl rfl
    · next hgate =>
      right
      rw [List.dropLast_concat]
      rw [List.length_append, List.length_singleton] at hlength
      obtain rfl | ⟨calls', call', rfl⟩ := List.eq_nil_or_concat' calls
      · exact absurd hlength (Nat.not_le.mpr (by decide : 1 < 5))
      have hdistinct' : ((calls' ++ [call']).map TimeCall.ip).Nodup := by
        rw [List.map_append, List.nodup_append] at hdistinct
        exact hdistinct.1
      rw [List.length_append, List.length_singleton] at hlength hgate
      rw [nTimeOffset_snoc hdistinct' (hbefore calls' call' rfl), if_pos (by omega)]

/-- The offset follows the median in every state that calls reach which all fit. -/
theorem timeOffset_follows {calls : List (TimeCall α)}
    (hdistinct : (calls.map TimeCall.ip).Nodup)
    (hfits : ∀ n call, calls[n]? = some call → CallFits (timeRun (calls.take n)) call) (n : Nat) :
    FollowsMedian (calls.take n) := by
  induction n with
  | zero =>
    have hfed := @fed_run α _ [] List.nodup_nil
    have hwindow : currentWindow ([] : List (TimeCall α)) = [0] := hfed.vValues.symm
    refine ⟨?_, hfed.sorted, hfed.median ?_, fun hlength => absurd hlength (Nat.not_succ_le_zero 4)⟩
    · show |(0 : Int)| < 70 * 60
      decide
    · rw [hwindow]
      exact ⟨by decide, by decide⟩
  | succ n ih =>
    cases hcall : calls[n]? with
    | none =>
      have hlen := List.getElem?_eq_none_iff.mp hcall
      rw [List.take_of_length_le (Nat.le_succ_of_le hlen)]
      rwa [List.take_of_length_le hlen] at ih
    | some call =>
      have htake : calls.take (n + 1) = calls.take n ++ [call] := by
        rw [List.take_add_one, hcall, Option.toList_some]
      have hsub := ((List.take_sublist (n + 1) calls).map TimeCall.ip).nodup hdistinct
      rw [htake] at hsub ⊢
      refine follows_snoc hsub (hfits n call hcall) ih.limited ?_
      intro calls' call' hsplit
      -- the call before stands at the end of the first `n`
      obtain ⟨m, rfl⟩ : ∃ m, n = m + 1 := by
        cases n with
        | zero => exact absurd hsplit (List.nil_eq_append_iff.not.mpr fun h => nomatch h.2)
        | succ m => exact ⟨m, rfl⟩
      have hlt := (List.getElem?_eq_some_iff.mp hcall).1
      obtain ⟨last, hlast⟩ : ∃ last, calls[m]? = some last :=
        ⟨_, List.getElem?_eq_getElem (Nat.lt_of_succ_lt hlt)⟩
      rw [List.take_add_one, hlast, Option.toList_some] at hsplit
      obtain ⟨rfl, hend⟩ := List.append_inj' hsplit rfl
      obtain rfl := List.singleton_inj.mp hend
      exact hfits m last hlast

/-- Peers whose clocks are two seconds further ahead one after another. -/
def advancingClocks (n : Nat) : List (TimeCall Nat) :=
  (List.range n).map fun ip => ⟨ip, 1700000002 + 2 * ip, 1700000000⟩

theorem advancingClocks_distinct (n : Nat) : ((advancingClocks n).map TimeCall.ip).Nodup := by
  rw [advancingClocks, List.map_map]
  exact List.nodup_range.map fun _ _ h => h

theorem timeOffset_follows_five : FollowsMedian ((advancingClocks 5).take 5) := by
  refine timeOffset_follows (advancingClocks_distinct 5) (fun n call hcall => ?_) 5
  have hlt : n < 5 := (List.getElem?_eq_some_iff.mp hcall).1
  interval_cases n <;> obtain rfl := Option.some.inj hcall <;>
    exact ⟨by decide +kernel, by decide +kernel, by decide +kernel⟩

/-! ## The full filter -/

/-- Once the filter is full, its size is even for good. -/
theorem addTimeData_full {state : TimeData α} (call : TimeCall α)
    (hsize : state.vTimeOffsets.nSize = 200) (hfull : state.vTimeOffsets.size = 200) :
    (addTimeData state call).vTimeOffsets.nSize = 200 ∧
      (addTimeData state call).vTimeOffsets.size = 200 ∧
        (addTimeData state call).nTimeOffset = state.nTimeOffset := by
  by_cases hknown : call.ip ∈ state.setKnown
  · rw [addTimeData_known hknown]
    exact ⟨hsize, hfull, rfl⟩
  · have hinput : (state.vTimeOffsets.input call.nOffsetSample).size = 200 := by
      unfold CMedianFilter.size at hfull ⊢
      unfold CMedianFilter.input
      dsimp only
      rw [if_pos (hfull.trans hsize.symm), List.length_append, List.length_tail, hfull]
      rfl
    rw [addTimeData_nTimeOffset hknown, (addTimeData_new hknown).1, hinput, if_neg (by decide)]
    exact ⟨hsize, rfl, rfl⟩

/-- No call changes the offset any more. -/
theorem nTimeOffset_full {state : TimeData α} (calls : List (TimeCall α))
    (hsize : state.vTimeOffsets.nSize = 200) (hfull : state.vTimeOffsets.size = 200) :
    (calls.foldl addTimeData state).nTimeOffset = state.nTimeOffset := by
  induction calls generalizing state with
  | nil => rfl
  | cons call calls ih =>
    obtain ⟨hsize', hfull', hoffset⟩ := addTimeData_full call hsize hfull
    rw [List.foldl_cons, ih hsize' hfull', hoffset]

/-- The last two windows before the filter is full have the medians 198 and 199; two calls later
they are 201 and 203. -/
theorem not_followsMedian : ¬ ∀ calls : List (TimeCall Nat),
    (calls.map TimeCall.ip).Nodup → FollowsMedian calls := by
  intro hall
  have hfull := fed_run (advancingClocks_distinct 199)
  have hsize : (timeRun (advancingClocks 199)).vTimeOffsets.size = 200 := by
    rw [CMedianFilter.size, hfull.vValues]
    decide +kernel
  have hsame : (timeRun (advancingClocks 201)).nTimeOffset =
      (timeRun (advancingClocks 199)).nTimeOffset := by
    have hsplit : advancingClocks 201 = advancingClocks 199 ++ (advancingClocks 201).drop 199 := by
      decide +kernel
    rw [hsplit, timeRun_append, nTimeOffset_full _ hfull.holds.nSize hsize]
  have hbefore := (hall _ (advancingClocks_distinct 199)).recomputed (by decide +kernel)
  have hafter := (hall _ (advancingClocks_distinct 201)).recomputed (by decide +kernel)
  have hmiddles : limitOffset (middle (currentWindow (advancingClocks 199))) = 199 ∧
      limitOffset (middle (currentWindow (advancingClocks 199).dropLast)) = 198 ∧
      limitOffset (middle (currentWindow (advancingClocks 201))) = 203 ∧
      limitOffset (middle (currentWindow (advancingClocks 201).dropLast)) = 201 := by
    decide +kernel
  rw [hmiddles.1, hmiddles.2.1] at hbefore
  rw [hsame, hmiddles.2.2.1, hmiddles.2.2.2] at hafter
  omega

end NoLimitCoin
