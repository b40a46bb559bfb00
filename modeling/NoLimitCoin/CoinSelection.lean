import Mathlib.Algebra.BigOperators.Group.Finset.Basic
import NoLimitCoin.Lib.Masked
import NoLimitCoin.InputValue

/-!
# Coin selection

`SelectCoinsMinConf` of `wallet.cpp` chooses the coins of a payment: an exact match, all the small
coins, the smallest large one, or what a stochastic search for a subset has found.

Results:
1. `approximateBestSubset_best`: whatever the random bits are, the best total is that of the best
   subset and reaches the target.
2. `selectCoinsMinConf_exact`: the selection covers the target exactly when the eligible coins do.
-/

namespace NoLimitCoin

/-- A coin: the transaction and the number of the output. -/
abbrev Coin := CTransaction × Nat

/-- The output that a coin is. -/
def Coin.txout (c : Coin) : CTxOut := (c.1.vout[c.2]?).getD ⟨-1, []⟩

/-- A coin with the depth of its transaction. -/
structure COutput where
  coin : Coin
  nDepth : Int

/-- `output.tx->vout[output.i].nValue`. -/
def COutput.nValue (output : COutput) : Int := output.coin.txout.nValue

/-- A coin with its value. -/
abbrev ValuedCoin := Int × Coin

/-! ## The stochastic search -/

/-- The variables of `ApproximateBestSubset`. -/
structure SubsetSearch where
  nTotal : Int
  vfIncluded : List Bool
  fReachedTarget : Bool
  nBest : Int
  vfBest : List Bool

namespace SubsetSearch

/-- Include a coin; one that reaches the target is taken out again. -/
def addCoin (nTargetValue : Int) (s : SubsetSearch) (i : Nat) (nValue : Int) : SubsetSearch :=
  let nTotal := s.nTotal + nValue
  let vfIncluded := s.vfIncluded.set i true
  if nTargetValue ≤ nTotal then
    let s := if nTotal < s.nBest then { s with nBest := nTotal, vfBest := vfIncluded } else s
    { s with
      nTotal := nTotal - nValue, vfIncluded := vfIncluded.set i false, fReachedTarget := true }
  else { s with nTotal := nTotal, vfIncluded := vfIncluded }

/-- A pass over the coins; `chosen` decides on the coin number `i`. -/
def pass (nTargetValue : Int) (chosen : SubsetSearch → Nat → Bool) :
    (i : Nat) → List Int → SubsetSearch → SubsetSearch
  | _, [], s => s
  | i, nValue :: values, s =>
    pass nTargetValue chosen (i + 1) values
      (if chosen s i then s.addCoin nTargetValue i nValue else s)

/-- A repetition: a random pass, and one over the coins that are left if the target has not been
reached. -/
def repetition (nTargetValue : Int) (values : List Int) (rand : Nat → Bool) (s : SubsetSearch) :
    SubsetSearch :=
  let s := { s with
    nTotal := 0, vfIncluded := List.replicate values.length false, fReachedTarget := false }
  let s := s.pass nTargetValue (fun _ i => rand i) 0 values
  if s.fReachedTarget then s
  else s.pass nTargetValue (fun s i => !s.vfIncluded.getD i true) 0 values

end SubsetSearch

/-- The loop of `ApproximateBestSubset`; `rand nRep i` is `rand() % 2` in a repetition. -/
def approximateLoop (nTargetValue : Int) (values : List Int) (rand : Nat → Nat → Bool) :
    (nRep iterations : Nat) → SubsetSearch → SubsetSearch
  | _, 0, s => s
  | nRep, iterations + 1, s =>
    if s.nBest = nTargetValue then s
    else approximateLoop nTargetValue values rand (nRep + 1) iterations
      (s.repetition nTargetValue values (rand nRep))

/-- `ApproximateBestSubset`: `vfBest` and `nBest`. -/
def approximateBestSubset (vValue : List ValuedCoin) (nTotalLower nTargetValue : Int)
    (rand : Nat → Nat → Bool) (iterations : Nat) : List Bool × Int :=
  let s := approximateLoop nTargetValue (vValue.map Prod.fst) rand 0 iterations
    ⟨0, [], false, nTotalLower, List.replicate vValue.length true⟩
  (s.vfBest, s.nBest)

namespace SubsetSearch

variable {values : List Int} {nTargetValue : Int} {s : SubsetSearch}

/-- The best subset has the best total, which reaches the target. -/
structure Best (values : List Int) (nTargetValue : Int) (s : SubsetSearch) : Prop where
  total : s.nBest = (selected values s.vfBest).sum
  reached : nTargetValue ≤ s.nBest

/-- The total is that of the coins that are included. -/
structure Inv (values : List Int) (nTargetValue : Int) (s : SubsetSearch) : Prop
    extends Best values nTargetValue s where
  length : s.vfIncluded.length = values.length
  included : s.nTotal = (selected values s.vfIncluded).sum

theorem addCoin_vfIncluded {i j : Nat} {nValue : Int} (hij : i ≠ j) :
    (s.addCoin nTargetValue i nValue).vfIncluded[j]? = s.vfIncluded[j]? := by
  unfold addCoin
  dsimp only
  split
  · show ((s.vfIncluded.set i true).set i false)[j]? = s.vfIncluded[j]?
    rw [List.getElem?_set_ne hij, List.getElem?_set_ne hij]
  · exact List.getElem?_set_ne hij

/-- A coin that is not included yet is included, and taken out again if it is one too many. -/
theorem Inv.addCoin (h : Inv values nTargetValue s) {i : Nat} {nValue : Int}
    (hvalue : values[i]? = some nValue) (hout : s.vfIncluded[i]? = some false) :
    Inv values nTargetValue (s.addCoin nTargetValue i nValue) := by
  have hsum := sum_selected_set hvalue hout
  rw [← h.included] at hsum
  unfold SubsetSearch.addCoin
  dsimp only
  split
  · next hreached =>
    have hback : (s.vfIncluded.set i true).set i false = s.vfIncluded := by
      rw [List.set_set]
      obtain ⟨hi, hget⟩ := List.getElem?_eq_some_iff.mp hout
      rw [← hget]
      exact List.set_getElem_self hi
    refine ⟨⟨?_, ?_⟩, ?_, ?_⟩
    · dsimp only
      split
      · exact hsum.symm
      · exact h.total
    · dsimp only
      split
      · exact hreached
      · exact h.reached
    · show ((s.vfIncluded.set i true).set i false).length = values.length
      rw [hback]
      exact h.length
    · show s.nTotal + nValue - nValue = (selected values ((s.vfIncluded.set i true).set i false)).sum
      rw [hback, ← h.included, add_sub_cancel_right]
  · exact ⟨⟨h.total, h.reached⟩, List.length_set.trans h.length, hsum.symm⟩

/-- A pass keeps the invariant if it chooses only coins that are not included: `Fresh` is what it
knows about the coins from `i` on. -/
theorem Inv.pass {chosen : SubsetSearch → Nat → Bool} {Fresh : SubsetSearch → Nat → Prop}
    (hchosen : ∀ s i, Fresh s i → i < s.vfIncluded.length → chosen s i = true →
      s.vfIncluded[i]? = some false)
    (hskip : ∀ s i, Fresh s i → Fresh s (i + 1))
    (hstep : ∀ s i nValue, Fresh s i → Fresh (s.addCoin nTargetValue i nValue) (i + 1))
    {rest before : List Int} (hvalues : values = before ++ rest) (hfresh : Fresh s before.length)
    (h : Inv values nTargetValue s) :
    Inv values nTargetValue (s.pass nTargetValue chosen before.length rest) := by
  induction rest generalizing before s with
  | nil => exact h
  | cons nValue rest ih =>
    have hmore : values = (before ++ [nValue]) ++ rest := by
      rw [hvalues, List.append_assoc]
      rfl
    have hlen : (before ++ [nValue]).length = before.length + 1 := List.length_append
    rw [SubsetSearch.pass, ← hlen]
    split
    · next hchoice =>
      have hvalue : values[before.length]? = some nValue := by
        rw [hvalues, List.getElem?_append_right (le_refl _), Nat.sub_self]
        rfl
      have hlt : before.length < s.vfIncluded.length :=
        h.length ▸ (List.getElem?_eq_some_iff.mp hvalue).1
      refine ih hmore (hlen ▸ hstep s _ nValue hfresh) ?_
      exact h.addCoin hvalue (hchosen s _ hfresh hlt hchoice)
    · exact ih hmore (hlen ▸ hskip s _ hfresh) h

/-- A repetition keeps the best subset, whatever the random bits are. -/
theorem Best.repetition (h : Best values nTargetValue s) (rand : Nat → Bool) :
    Best values nTargetValue (s.repetition nTargetValue values rand) := by
  have hstart : Inv values nTargetValue { s with
      nTotal := 0, vfIncluded := List.replicate values.length false, fReachedTarget := false } :=
    ⟨⟨h.total, h.reached⟩, List.length_replicate, by rw [selected_none]; rfl⟩
  -- in the random pass the coins to come have never been included
  have hfirst := @Inv.pass values nTargetValue _ (fun _ i => rand i)
    (fun s i => ∀ j, i ≤ j → j < s.vfIncluded.length → s.vfIncluded[j]? = some false)
    (fun s i hfresh hlt _ => hfresh i (le_refl i) hlt)
    (fun s i hfresh j hj => hfresh j (Nat.le_of_succ_le hj))
    (fun s i nValue hfresh j hj hlt => by
      rw [addCoin_vfIncluded (Nat.ne_of_lt hj)]
      refine hfresh j (Nat.le_of_succ_le hj) ?_
      have hsome := List.getElem?_eq_getElem hlt
      rw [addCoin_vfIncluded (Nat.ne_of_lt hj)] at hsome
      exact (List.getElem?_eq_some_iff.mp hsome).1)
    values [] rfl
    (fun j _ hj => by
      rw [List.length_replicate] at hj
      exact List.getElem?_replicate_of_lt hj) hstart
  unfold SubsetSearch.repetition
  dsimp only
  split
  · exact hfirst.toBest
  · refine (@Inv.pass values nTargetValue _ (fun s i => !s.vfIncluded.getD i true) (fun _ _ => True)
      (fun s i _ hlt hchoice => ?_) (fun _ _ h => h) (fun _ _ _ h => h) values [] rfl trivial
      hfirst).toBest
    rw [List.getD_eq_getElem?_getD, List.getElem?_eq_getElem hlt] at hchoice
    rw [List.getElem?_eq_getElem hlt]
    exact congrArg some (by simpa using hchoice)

end SubsetSearch

theorem approximateLoop_best {values : List Int} {nTargetValue : Int} (rand : Nat → Nat → Bool)
    (nRep iterations : Nat) {s : SubsetSearch} (h : s.Best values nTargetValue) :
    (approximateLoop nTargetValue values rand nRep iterations s).Best values nTargetValue := by
  induction iterations generalizing nRep s with
  | zero => exact h
  | succ iterations ih =>
    rw [approximateLoop]
    split
    · exact h
    · exact ih (nRep + 1) (h.repetition (rand nRep))

/-- Whatever the random bits are, the best total is that of the best subset and reaches the
target. -/
theorem approximateBestSubset_best {vValue : List ValuedCoin} {nTotalLower nTargetValue : Int}
    (rand : Nat → Nat → Bool) (iterations : Nat) (htotal : nTotalLower = (vValue.map Prod.fst).sum)
    (htarget : nTargetValue ≤ nTotalLower) {vfBest : List Bool} {nBest : Int}
    (h : approximateBestSubset vValue nTotalLower nTargetValue rand iterations = (vfBest, nBest)) :
    nBest = ((selected vValue vfBest).map Prod.fst).sum ∧ nTargetValue ≤ nBest := by
  have hbest := @approximateLoop_best (vValue.map Prod.fst) nTargetValue rand 0 iterations
    ⟨0, [], false, nTotalLower, List.replicate vValue.length true⟩
    ⟨by rw [← @List.length_map _ _ vValue Prod.fst, selected_all]; exact htotal, htarget⟩
  obtain ⟨rfl, rfl⟩ := Prod.mk.inj h
  exact ⟨(selected_map Prod.fst vValue _) ▸ hbest.total, hbest.reached⟩

/-! ## The selection -/

/-- The outcomes of the random choices of `SelectCoinsMinConf`. -/
structure Randomness where
  /-- `random_shuffle`. -/
  shuffle : List COutput → List COutput
  shuffle_perm : ∀ vCoins, (shuffle vCoins).Perm vCoins
  /-- `rand() % 2` in the two calls of `ApproximateBestSubset`. -/
  rand : Bool → Nat → Nat → Bool

/-- The variables of the loop over the coins; without a larger coin the pointer is null. -/
structure CoinScan where
  coinLowestLarger : Int × Option Coin
  vValue : List ValuedCoin
  nTotalLower : Int

/-- A payment to select coins for: `IsFromMe` of the wallet, and the arguments. -/
structure CoinRequest where
  isFromMe : CTransaction → Bool
  nTargetValue : Int
  nSpendTime : Nat
  nConfMine : Int
  nConfTheirs : Int

namespace CoinRequest

/-- The coins that may be selected: deep enough, and not younger than the payment. -/
def eligible (r : CoinRequest) (output : COutput) : Bool :=
  !decide (output.nDepth < (if r.isFromMe output.coin.1 then r.nConfMine else r.nConfTheirs)) &&
    !decide (r.nSpendTime < output.coin.1.nTime)

/-- The loop over the coins: the coin that matches exactly, or what has been gathered. -/
def scan (r : CoinRequest) : CoinScan → List COutput → Except Exit (ValuedCoin ⊕ CoinScan)
  | s, [] => pure (.inr s)
  | s, output :: vCoins =>
    if !r.eligible output then r.scan s vCoins
    else
      let n := output.nValue
      if n = r.nTargetValue then pure (.inl (n, output.coin))
      else do
        let nLimit ← Int64.checked (r.nTargetValue + cent)
        if n < nLimit then
          let nTotalLower ← Int64.checked (s.nTotalLower + n)
          r.scan { s with
            vValue := s.vValue ++ [(n, output.coin)], nTotalLower := nTotalLower } vCoins
        else if n < s.coinLowestLarger.1 then
          r.scan { s with coinLowestLarger := (n, some output.coin) } vCoins
        else r.scan s vCoins

/-- `setCoinsRet` and `nValueRet` for the coins that are inserted. -/
def inserted (coins : List ValuedCoin) : Finset Coin × Int :=
  ((coins.map Prod.snd).toFinset, (coins.map Prod.fst).sum)

/-- What `SelectCoinsMinConf` does with the coins that the loop has gathered; none if they are not
enough. -/
def choose (r : CoinRequest) (rand : Bool → Nat → Nat → Bool) (s : CoinScan) :
    Option (List ValuedCoin) :=
  let larger := s.coinLowestLarger.2.map fun coin => (s.coinLowestLarger.1, coin)
  if s.nTotalLower = r.nTargetValue then some s.vValue
  else if s.nTotalLower < r.nTargetValue then larger.map fun coin => [coin]
  else
    -- equal values stay in the order of the shuffle, which is any
    let vValue := s.vValue.mergeSort fun a b => b.1 ≤ a.1
    let first := approximateBestSubset vValue s.nTotalLower r.nTargetValue (rand false) 1000
    let (vfBest, nBest) :=
      if first.2 ≠ r.nTargetValue ∧ r.nTargetValue + cent ≤ s.nTotalLower then
        approximateBestSubset vValue s.nTotalLower (r.nTargetValue + cent) (rand true) 1000
      else first
    match larger with
    | some coin =>
      if (nBest ≠ r.nTargetValue ∧ nBest < r.nTargetValue + cent) ∨ coin.1 ≤ nBest then some [coin]
      else some (selected vValue vfBest)
    | none => some (selected vValue vfBest)

/-- `SelectCoinsMinConf`: the result, `setCoinsRet` and `nValueRet`. -/
def selectCoinsMinConf (r : CoinRequest) (random : Randomness) (vCoins : List COutput) :
    Except Exit (Bool × Finset Coin × Int) := do
  match ← r.scan ⟨(2 ^ 63 - 1, none), [], 0⟩ (random.shuffle vCoins) with
  | .inl coin => pure (true, inserted [coin])
  | .inr s =>
    match r.choose random.rand s with
    | none => pure (false, inserted [])
    | some coins => pure (true, inserted coins)

/-! ### What the loop gathers -/

/-- The coins that may be selected and whose value is below the target and a cent. -/
def lower (r : CoinRequest) (vCoins : List COutput) : List COutput :=
  vCoins.filter fun output => r.eligible output && decide (output.nValue < r.nTargetValue + cent)

/-- The total of some coins, over the integers. -/
def total (vCoins : List COutput) : Int := (vCoins.map COutput.nValue).sum

/-- The variables of the loop for the coins that it has gone through without an exact match. -/
structure Scanned (r : CoinRequest) (before : List COutput) (s : CoinScan) : Prop where
  vValue : s.vValue = (r.lower before).map fun output => (output.nValue, output.coin)
  nTotalLower : s.nTotalLower = total (r.lower before)
  inexact : ∀ output ∈ before, r.eligible output = true → output.nValue ≠ r.nTargetValue
  /-- The smallest of the larger coins; without one the value is the greatest there is. -/
  larger : (s.coinLowestLarger = (2 ^ 63 - 1, none) ∧
      ∀ output ∈ before, r.eligible output = true → output.nValue < r.nTargetValue + cent) ∨
    ∃ found ∈ before, r.eligible found = true ∧ r.nTargetValue + cent ≤ found.nValue ∧
      s.coinLowestLarger = (found.nValue, some found.coin) ∧
      ∀ output ∈ before, r.eligible output = true → r.nTargetValue + cent ≤ output.nValue →
        found.nValue ≤ output.nValue

section scan

variable {r : CoinRequest} {before rest : List COutput} {s : CoinScan} {output : COutput}

theorem lower_append (r : CoinRequest) (xs ys : List COutput) :
    r.lower (xs ++ ys) = r.lower xs ++ r.lower ys := List.filter_append ..

theorem total_append (xs ys : List COutput) : total (xs ++ ys) = total xs + total ys := by
  rw [total, List.map_append, List.sum_append]
  rfl

theorem total_nonneg {vCoins : List COutput} (h : ∀ output ∈ vCoins, 0 ≤ output.nValue) :
    0 ≤ total vCoins := by
  refine List.sum_nonneg fun n hn => ?_
  obtain ⟨output, houtput, rfl⟩ := List.mem_map.mp hn
  exact h output houtput

/-- A coin that may not be selected is passed over. -/
theorem Scanned.skip (h : r.Scanned before s) (hout : r.eligible output = false) :
    r.Scanned (before ++ [output]) s := by
  have hlower : r.lower (before ++ [output]) = r.lower before := by
    rw [lower_append, lower, lower, List.filter_singleton, hout]
    exact List.append_nil _
  have hmem : ∀ o ∈ before ++ [output], r.eligible o = true → o ∈ before := by
    intro o ho heligible
    rcases List.mem_append.mp ho with ho | ho
    · exact ho
    · rw [List.mem_singleton.mp ho, hout] at heligible
      exact absurd heligible Bool.false_ne_true
  refine ⟨hlower ▸ h.vValue, hlower ▸ h.nTotalLower, fun o ho heligible =>
    h.inexact o (hmem o ho heligible) heligible, ?_⟩
  rcases h.larger with ⟨hnone, hsmall⟩ | ⟨found, hfound, heligible, hlarge, hlowest, hleast⟩
  · exact .inl ⟨hnone, fun o ho heligible => hsmall o (hmem o ho heligible) heligible⟩
  · exact .inr ⟨found, List.mem_append_left _ hfound, heligible, hlarge, hlowest,
      fun o ho heligible => hleast o (hmem o ho heligible) heligible⟩

/-- A coin below the target and a cent is added to the small coins. -/
theorem Scanned.addLower (h : r.Scanned before s) (hin : r.eligible output = true)
    (hne : output.nValue ≠ r.nTargetValue) (hlt : output.nValue < r.nTargetValue + cent) :
    r.Scanned (before ++ [output]) { s with
      vValue := s.vValue ++ [(output.nValue, output.coin)],
      nTotalLower := s.nTotalLower + output.nValue } := by
  have hlower : r.lower (before ++ [output]) = r.lower before ++ [output] := by
    rw [lower_append]
    refine congrArg (r.lower before ++ ·) (List.filter_eq_self.mpr fun o ho => ?_)
    rw [List.mem_singleton.mp ho, hin]
    exact decide_eq_true hlt
  refine ⟨?_, ?_, fun o ho heligible => ?_, ?_⟩
  · rw [hlower, List.map_append, ← h.vValue]
    rfl
  · rw [hlower, total_append, ← h.nTotalLower]
    exact congrArg (s.nTotalLower + ·) (List.sum_singleton).symm
  · rcases List.mem_append.mp ho with ho | ho
    · exact h.inexact o ho heligible
    · exact List.mem_singleton.mp ho ▸ hne
  · rcases h.larger with ⟨hnone, hsmall⟩ | ⟨found, hfound, heligible, hlarge, hlowest, hleast⟩
    · refine .inl ⟨hnone, fun o ho heligible => ?_⟩
      rcases List.mem_append.mp ho with ho | ho
      · exact hsmall o ho heligible
      · exact List.mem_singleton.mp ho ▸ hlt
    · refine .inr ⟨found, List.mem_append_left _ hfound, heligible, hlarge, hlowest,
        fun o ho heligible hge => ?_⟩
      rcases List.mem_append.mp ho with ho | ho
      · exact hleast o ho heligible hge
      · rw [List.mem_singleton.mp ho] at hge
        exact absurd hlt (not_lt.mpr hge)

/-- Of the larger coins the smallest is kept. -/
theorem Scanned.addLarger (h : r.Scanned before s) (hin : r.eligible output = true)
    (hge : r.nTargetValue + cent ≤ output.nValue) (hmax : output.nValue < 2 ^ 63 - 1) :
    r.Scanned (before ++ [output]) (if output.nValue < s.coinLowestLarger.1 then
      { s with coinLowestLarger := (output.nValue, some output.coin) } else s) := by
  have hlower : r.lower (before ++ [output]) = r.lower before := by
    rw [lower_append, lower, lower, List.filter_singleton, hin,
      Bool.true_and, decide_eq_false (not_lt.mpr hge)]
    exact List.append_nil _
  have hinexact : ∀ o ∈ before ++ [output], r.eligible o = true → o.nValue ≠ r.nTargetValue := by
    intro o ho heligible
    rcases List.mem_append.mp ho with ho | ho
    · exact h.inexact o ho heligible
    · have hcent : (0 : Int) < cent := by decide
      rw [List.mem_singleton.mp ho]
      omega
  have hlast : output ∈ before ++ [output] := List.mem_append_right _ List.mem_cons_self
  split
  · next hlt =>
    refine ⟨hlower ▸ h.vValue, hlower ▸ h.nTotalLower, hinexact, .inr ⟨output, hlast, hin, hge, rfl,
      fun o ho heligible hlarge => ?_⟩⟩
    rcases List.mem_append.mp ho with ho | ho
    · rcases h.larger with ⟨-, hsmall⟩ | ⟨found, -, -, -, hlowest, hleast⟩
      · exact absurd (hsmall o ho heligible) (not_lt.mpr hlarge)
      · rw [hlowest] at hlt
        exact hlt.le.trans (hleast o ho heligible hlarge)
    · exact List.mem_singleton.mp ho ▸ le_refl _
  · next hle =>
    refine ⟨hlower ▸ h.vValue, hlower ▸ h.nTotalLower, hinexact, .inr ?_⟩
    rcases h.larger with ⟨hnone, -⟩ | ⟨found, hfound, heligible, hlarge, hlowest, hleast⟩
    · rw [hnone] at hle
      exact absurd hmax hle
    · refine ⟨found, List.mem_append_left _ hfound, heligible, hlarge, hlowest,
        fun o ho heligible hge => ?_⟩
      rcases List.mem_append.mp ho with ho | ho
      · exact hleast o ho heligible hge
      · rw [hlowest] at hle
        exact List.mem_singleton.mp ho ▸ not_lt.mp hle

/-- The loop ends with an exact match, or with what it has gathered. -/
theorem scan_spec (h : r.Scanned before s)
    (hlimit : Int64.inRange (r.nTargetValue + cent) = true)
    (hrange : ∀ output ∈ before ++ rest, 0 ≤ output.nValue ∧ output.nValue < 2 ^ 63 - 1)
    (htotal : total (r.lower (before ++ rest)) < 2 ^ 63) :
    (∃ output ∈ rest, r.eligible output = true ∧ output.nValue = r.nTargetValue ∧
      r.scan s rest = .ok (.inl (output.nValue, output.coin))) ∨
    ∃ s', r.scan s rest = .ok (.inr s') ∧ r.Scanned (before ++ rest) s' := by
  induction rest generalizing before s with
  | nil =>
    rw [List.append_nil]
    exact .inr ⟨s, rfl, h⟩
  | cons output rest ih =>
    have hmore : before ++ output :: rest = (before ++ [output]) ++ rest := by
      rw [List.append_assoc]
      rfl
    have hlater : ∀ s', r.Scanned (before ++ [output]) s' →
        r.scan s (output :: rest) = r.scan s' rest →
        (∃ o ∈ output :: rest, r.eligible o = true ∧ o.nValue = r.nTargetValue ∧
          r.scan s (output :: rest) = .ok (.inl (o.nValue, o.coin))) ∨
        ∃ s'', r.scan s (output :: rest) = .ok (.inr s'') ∧
          r.Scanned (before ++ output :: rest) s'' := by
      intro s' hs' hscan
      rw [hscan, hmore]
      rw [hmore] at hrange htotal
      rcases ih hs' hrange htotal with ⟨o, ho, hfound⟩ | hgathered
      · exact .inl ⟨o, List.mem_cons_of_mem _ ho, hfound⟩
      · exact .inr hgathered
    have hthis := hrange output (List.mem_append_right _ List.mem_cons_self)
    cases hin : r.eligible output with
    | false => exact hlater s (h.skip hin) (by rw [scan, hin]; rfl)
    | true =>
      by_cases heq : output.nValue = r.nTargetValue
      · refine .inl ⟨output, List.mem_cons_self, hin, heq, ?_⟩
        rw [scan, hin, if_neg (by decide)]
        exact if_pos heq
      by_cases hlt : output.nValue < r.nTargetValue + cent
      · refine hlater _ (h.addLower hin heq hlt) ?_
        have hnonneg : 0 ≤ total (r.lower rest) := total_nonneg fun o ho =>
          (hrange o (List.mem_append_right _ (List.mem_cons_of_mem _
            (List.mem_of_mem_filter ho)))).1
        have hbefore : 0 ≤ total (r.lower before) := total_nonneg fun o ho =>
          (hrange o (List.mem_append_left _ (List.mem_of_mem_filter ho))).1
        have hadded := (h.addLower hin heq hlt).nTotalLower
        dsimp only at hadded
        rw [hmore, lower_append, total_append, ← hadded] at htotal
        rw [← h.nTotalLower] at hbefore
        have hchecked : Int64.checked (s.nTotalLower + output.nValue) =
            .ok (s.nTotalLower + output.nValue) := by
          refine Int64.checked_eq_ok.mpr ⟨?_, rfl⟩
          rw [Int64.inRange, Bool.and_eq_true, decide_eq_true_eq, decide_eq_true_eq]
          omega
        rw [scan, hin, if_neg (by decide)]
        dsimp only
        rw [if_neg heq, Int64.checked_eq_ok.mpr ⟨hlimit, rfl⟩]
        refine (if_pos hlt).trans ?_
        rw [hchecked]
        rfl
      · refine hlater _ (h.addLarger hin (not_lt.mp hlt) hthis.2) ?_
        rw [scan, hin, if_neg (by decide)]
        dsimp only
        rw [if_neg heq, Int64.checked_eq_ok.mpr ⟨hlimit, rfl⟩]
        refine (if_neg hlt).trans ?_
        split <;> rfl

/-- A loop that has ended, whatever the limits of its arithmetic are. -/
theorem scan_ok {found : ValuedCoin ⊕ CoinScan} (h : r.Scanned before s)
    (hrange : ∀ output ∈ before ++ rest, output.nValue < 2 ^ 63 - 1)
    (hscan : r.scan s rest = .ok found) :
    (∃ output ∈ rest, r.eligible output = true ∧ output.nValue = r.nTargetValue ∧
      found = .inl (output.nValue, output.coin)) ∨
    ∃ s', found = .inr s' ∧ r.Scanned (before ++ rest) s' := by
  induction rest generalizing before s with
  | nil =>
    obtain rfl := Except.ok.inj hscan
    rw [List.append_nil]
    exact .inr ⟨s, rfl, h⟩
  | cons output rest ih =>
    have hmore : before ++ output :: rest = (before ++ [output]) ++ rest := by
      rw [List.append_assoc]
      rfl
    have hlater : ∀ s', r.Scanned (before ++ [output]) s' → r.scan s' rest = .ok found →
        (∃ o ∈ output :: rest, r.eligible o = true ∧ o.nValue = r.nTargetValue ∧
          found = .inl (o.nValue, o.coin)) ∨
        ∃ s'', found = .inr s'' ∧ r.Scanned (before ++ output :: rest) s'' := by
      intro s' hs' hrest
      rw [hmore] at hrange ⊢
      rcases ih hs' hrange hrest with ⟨o, ho, hfound⟩ | hgathered
      · exact .inl ⟨o, List.mem_cons_of_mem _ ho, hfound⟩
      · exact .inr hgathered
    rw [scan] at hscan
    cases hin : r.eligible output with
    | false =>
      rw [hin] at hscan
      exact hlater s (h.skip hin) hscan
    | true =>
      rw [hin, if_neg (by decide)] at hscan
      dsimp only at hscan
      split at hscan
      · next heq =>
        obtain rfl := Except.ok.inj hscan
        exact .inl ⟨output, List.mem_cons_self, hin, heq, rfl⟩
      · next heq =>
        obtain ⟨nLimit, hchecked, hscan⟩ := except_bind_eq_ok.mp hscan
        obtain ⟨-, rfl⟩ := Int64.checked_eq_ok.mp hchecked
        split at hscan
        · next hlt =>
          obtain ⟨nTotalLower, hadded, hscan⟩ := except_bind_eq_ok.mp hscan
          obtain ⟨-, rfl⟩ := Int64.checked_eq_ok.mp hadded
          exact hlater _ (h.addLower hin heq hlt) hscan
        · next hge =>
          refine hlater _ (h.addLarger hin (not_lt.mp hge)
            (hrange output (List.mem_append_right _ List.mem_cons_self))) ?_
          split at hscan
          · next hlt => rwa [if_pos hlt]
          · next hle => rwa [if_neg hle]

end scan

/-! ### What is chosen -/

/-- Coins that pay for the request. -/
structure Pays (r : CoinRequest) (vCoins : List COutput) (coins : List ValuedCoin) : Prop where
  eligible : ∀ c ∈ coins, ∃ output ∈ vCoins,
    r.eligible output = true ∧ c = (output.nValue, output.coin)
  nodup : (coins.map Prod.snd).Nodup
  covers : r.nTargetValue ≤ (coins.map Prod.fst).sum
  least : ∀ output ∈ vCoins, r.eligible output = true → r.nTargetValue + cent ≤ output.nValue →
    (coins.map Prod.fst).sum ≤ output.nValue

section choose

variable {r : CoinRequest} {vCoins : List COutput} {s : CoinScan}

theorem total_le_of_sublist {xs ys : List COutput} (h : xs.Sublist ys)
    (hnonneg : ∀ output ∈ ys, 0 ≤ output.nValue) : total xs ≤ total ys := by
  induction h with
  | slnil => exact le_refl _
  | cons output _ ih =>
    have hle := ih fun o ho => hnonneg o (List.mem_cons_of_mem _ ho)
    exact hle.trans (le_add_of_nonneg_left (hnonneg output List.mem_cons_self))
  | cons_cons output _ ih =>
    exact Int.add_le_add_left (ih fun o ho => hnonneg o (List.mem_cons_of_mem _ ho)) _

/-- One coin that is enough. -/
theorem pays_single {output : COutput} (hmem : output ∈ vCoins) (hin : r.eligible output = true)
    (hcovers : r.nTargetValue ≤ output.nValue)
    (hleast : ∀ o ∈ vCoins, r.eligible o = true → r.nTargetValue + cent ≤ o.nValue →
      output.nValue ≤ o.nValue) : r.Pays vCoins [(output.nValue, output.coin)] := by
  have hsum : ([(output.nValue, output.coin)].map Prod.fst).sum = output.nValue :=
    List.sum_singleton
  refine ⟨fun c hc => ⟨output, hmem, hin, List.mem_singleton.mp hc⟩, List.nodup_singleton _, ?_,
    fun o ho heligible hlarge => ?_⟩
  · rw [hsum]
    exact hcovers
  · rw [hsum]
    exact hleast o ho heligible hlarge

/-- Some of the small coins. -/
theorem pays_lower (hscan : r.Scanned vCoins s) (hnodup : (vCoins.map COutput.coin).Nodup)
    {coins sorted : List ValuedCoin} (hsorted : sorted.Perm s.vValue) (hsub : coins.Sublist sorted)
    (hcovers : r.nTargetValue ≤ (coins.map Prod.fst).sum)
    (hleast : ∀ o ∈ vCoins, r.eligible o = true → r.nTargetValue + cent ≤ o.nValue →
      (coins.map Prod.fst).sum ≤ o.nValue) : r.Pays vCoins coins := by
  refine ⟨fun c hc => ?_, ?_, hcovers, hleast⟩
  · have hmem := hsorted.subset (hsub.subset hc)
    rw [hscan.vValue] at hmem
    obtain ⟨output, houtput, rfl⟩ := List.mem_map.mp hmem
    obtain ⟨houtput, hlower⟩ := List.mem_filter.mp houtput
    exact ⟨output, houtput, (Bool.and_eq_true_iff.mp hlower).1, rfl⟩
  · refine (hsub.map Prod.snd).nodup ((hsorted.map Prod.snd).nodup_iff.mpr ?_)
    rw [hscan.vValue, List.map_map]
    exact (List.filter_sublist.map COutput.coin).nodup hnodup

/-- The coins that may be selected. -/
def eligibles (r : CoinRequest) (vCoins : List COutput) : List COutput :=
  vCoins.filter fun output => r.eligible output

theorem lower_sublist (r : CoinRequest) (vCoins : List COutput) :
    (r.lower vCoins).Sublist (r.eligibles vCoins) := by
  refine List.monotone_filter_right vCoins fun output h => ?_
  exact (Bool.and_eq_true_iff.mp h).1

/-- What is chosen pays for the request, and nothing is chosen only if the coins do not. -/
theorem choose_spec (hscan : r.Scanned vCoins s) (hnodup : (vCoins.map COutput.coin).Nodup)
    (hnonneg : ∀ output ∈ vCoins, 0 ≤ output.nValue) (rand : Bool → Nat → Nat → Bool) :
    (∃ coins, r.choose rand s = some coins ∧ r.Pays vCoins coins ∧
      r.nTargetValue ≤ total (r.eligibles vCoins)) ∨
    (r.choose rand s = none ∧ total (r.eligibles vCoins) < r.nTargetValue) := by
  have hcent : (0 : Int) < cent := by decide
  have heligibles : ∀ output ∈ r.eligibles vCoins, 0 ≤ output.nValue := fun o ho =>
    hnonneg o (List.mem_of_mem_filter ho)
  have hle : s.nTotalLower ≤ total (r.eligibles vCoins) := by
    rw [hscan.nTotalLower]
    exact total_le_of_sublist (lower_sublist r vCoins) heligibles
  have hsum : (s.vValue.map Prod.fst).sum = s.nTotalLower := by
    rw [hscan.vValue, hscan.nTotalLower, List.map_map]
    rfl
  unfold choose
  dsimp only
  by_cases hexact : s.nTotalLower = r.nTargetValue
  · rw [if_pos hexact]
    refine .inl ⟨s.vValue, rfl, ?_, hexact ▸ hle⟩
    refine pays_lower hscan hnodup (List.Perm.refl _) (List.Sublist.refl _) ?_ ?_
    · rw [hsum, hexact]
    · intro o ho heligible hlarge
      rw [hsum, hexact]
      omega
  rw [if_neg hexact]
  by_cases hless : s.nTotalLower < r.nTargetValue
  · rw [if_pos hless]
    rcases hscan.larger with ⟨hnone, hsmall⟩ | ⟨found, hfound, hin, hlarge, hlowest, hleast⟩
    · refine .inr ⟨by rw [hnone]; rfl, ?_⟩
      have hall : r.eligibles vCoins = r.lower vCoins := by
        refine List.filter_congr fun o ho => ?_
        cases heligible : r.eligible o with
        | false => rfl
        | true => exact (decide_eq_true (hsmall o ho heligible)).symm
      rw [hall, ← hscan.nTotalLower]
      exact hless
    · refine .inl ⟨[(found.nValue, found.coin)], by rw [hlowest]; rfl,
        pays_single hfound hin (by omega) hleast, ?_⟩
      have hone := total_le_of_sublist
        (List.singleton_sublist.mpr (List.mem_filter.mpr ⟨hfound, hin⟩)) heligibles
      have hvalue : total [found] = found.nValue := List.sum_singleton
      exact ((le_add_of_nonneg_right hcent.le).trans (hvalue ▸ hlarge)).trans hone
  rw [if_neg hless]
  have hreached : r.nTargetValue ≤ s.nTotalLower := not_lt.mp hless
  have hsorted := List.mergeSort_perm s.vValue fun a b : ValuedCoin => b.1 ≤ a.1
  generalize (s.vValue.mergeSort fun a b => b.1 ≤ a.1) = vValue at hsorted ⊢
  have htotal : s.nTotalLower = (vValue.map Prod.fst).sum := by
    rw [← hsum]
    exact ((hsorted.map Prod.fst).sum_eq).symm
  -- both calls record a best total that is that of the best subset
  obtain ⟨vfBest, nBest, hbest, htotalBest, hcovers⟩ : ∃ vfBest nBest,
      (if (approximateBestSubset vValue s.nTotalLower r.nTargetValue (rand false) 1000).2 ≠
          r.nTargetValue ∧ r.nTargetValue + cent ≤ s.nTotalLower then
        approximateBestSubset vValue s.nTotalLower (r.nTargetValue + cent) (rand true) 1000
      else approximateBestSubset vValue s.nTotalLower r.nTargetValue (rand false) 1000) =
        (vfBest, nBest) ∧
      nBest = ((selected vValue vfBest).map Prod.fst).sum ∧ r.nTargetValue ≤ nBest := by
    split
    · next hagain =>
      obtain ⟨heq, hge⟩ := approximateBestSubset_best (rand true) 1000 htotal hagain.2 rfl
      exact ⟨_, _, rfl, heq, by omega⟩
    · exact ⟨_, _, rfl, approximateBestSubset_best (rand false) 1000 htotal hreached rfl⟩
  rw [hbest]
  dsimp only
  have hsubset : (∀ o ∈ vCoins, r.eligible o = true → r.nTargetValue + cent ≤ o.nValue →
      nBest ≤ o.nValue) → r.Pays vCoins (selected vValue vfBest) := fun hleast =>
    pays_lower hscan hnodup hsorted (selected_sublist vValue vfBest) (htotalBest ▸ hcovers)
      (htotalBest ▸ hleast)
  rcases hscan.larger with ⟨hnone, hsmall⟩ | ⟨found, hfound, hin, hlarge, hlowest, hleast⟩
  · refine .inl ⟨selected vValue vfBest, by rw [hnone]; rfl, hsubset ?_, hreached.trans hle⟩
    intro o ho heligible hge
    exact absurd (hsmall o ho heligible) (not_lt.mpr hge)
  · rw [hlowest]
    dsimp only [Option.map_some]
    split
    · exact .inl ⟨_, rfl, pays_single hfound hin (by omega) hleast, hreached.trans hle⟩
    · next hsubsetBest =>
      refine .inl ⟨_, rfl, hsubset fun o ho heligible hge => ?_, hreached.trans hle⟩
      have hlt : nBest < found.nValue := not_le.mp fun h => hsubsetBest (.inr h)
      exact hlt.le.trans (hleast o ho heligible hge)

end choose

/-- The coins that are inserted are worth what is added up. -/
theorem Pays.sum_inserted {r : CoinRequest} {vCoins : List COutput} {coins : List ValuedCoin}
    (h : r.Pays vCoins coins) :
    (inserted coins).2 = ∑ c ∈ (inserted coins).1, (Coin.txout c).nValue := by
  show (coins.map Prod.fst).sum = ∑ c ∈ (coins.map Prod.snd).toFinset, (Coin.txout c).nValue
  rw [List.sum_toFinset _ h.nodup, List.map_map]
  refine congrArg List.sum (List.map_congr_left fun c hc => ?_)
  obtain ⟨output, -, -, rfl⟩ := h.eligible c hc
  rfl

/-- The coins of a wallet that a selection is about. -/
structure Selectable (vCoins : List COutput) : Prop where
  distinct : (vCoins.map COutput.coin).Nodup
  moneyRange : ∀ output ∈ vCoins, NoLimitCoin.moneyRange output.nValue = true

/-- A selection that succeeds or fails as it should. -/
def Selects (r : CoinRequest) (vCoins : List COutput) (fOk : Bool) (setCoinsRet : Finset Coin)
    (nValueRet : Int) : Prop :=
  (fOk = true ↔ r.nTargetValue ≤ total (r.eligibles vCoins)) ∧
  (fOk = true →
    (∀ c ∈ setCoinsRet, ∃ output ∈ vCoins, r.eligible output = true ∧ output.coin = c) ∧
    nValueRet = ∑ c ∈ setCoinsRet, (Coin.txout c).nValue ∧ r.nTargetValue ≤ nValueRet ∧
    ∀ output ∈ vCoins, r.eligible output = true → r.nTargetValue + cent ≤ output.nValue →
      nValueRet ≤ output.nValue) ∧
  (fOk = false → setCoinsRet = ∅)

theorem Pays.selects {r : CoinRequest} {vCoins : List COutput} {coins : List ValuedCoin}
    (h : r.Pays vCoins coins) (htotal : r.nTargetValue ≤ total (r.eligibles vCoins)) :
    r.Selects vCoins true (inserted coins).1 (inserted coins).2 := by
  refine ⟨⟨fun _ => htotal, fun _ => rfl⟩, fun _ => ⟨fun c hc => ?_, h.sum_inserted, h.covers, h.least⟩,
    fun hfalse => absurd hfalse (by decide)⟩
  obtain ⟨valued, hvalued, rfl⟩ := List.mem_map.mp (List.mem_toFinset.mp hc)
  obtain ⟨output, houtput, hin, rfl⟩ := h.eligible valued hvalued
  exact ⟨output, houtput, hin, rfl⟩

/-- A coin that matches exactly pays. -/
theorem selects_exact {r : CoinRequest} {vCoins : List COutput} {output : COutput}
    (hmem : output ∈ vCoins) (hin : r.eligible output = true)
    (heq : output.nValue = r.nTargetValue) (hnonneg : ∀ o ∈ vCoins, 0 ≤ o.nValue) :
    r.Selects vCoins true (inserted [(output.nValue, output.coin)]).1
      (inserted [(output.nValue, output.coin)]).2 := by
  have hcent : (0 : Int) < cent := by decide
  have hpays : r.Pays vCoins [(output.nValue, output.coin)] :=
    pays_single hmem hin heq.ge fun o _ _ hlarge => by omega
  refine hpays.selects ?_
  rw [← heq]
  have hone := total_le_of_sublist
    (List.singleton_sublist.mpr (List.mem_filter.mpr ⟨hmem, hin⟩))
    fun o ho => hnonneg o (List.mem_of_mem_filter ho)
  exact (List.sum_singleton (x := output.nValue)).symm.le.trans hone

/-- Before the first coin. -/
theorem Scanned.start (r : CoinRequest) : r.Scanned [] ⟨(2 ^ 63 - 1, none), [], 0⟩ :=
  ⟨rfl, rfl, fun _ ho => absurd ho List.not_mem_nil,
    .inl ⟨rfl, fun _ ho => absurd ho List.not_mem_nil⟩⟩

theorem Selectable.perm {xs ys : List COutput} (h : xs.Perm ys) (hcoins : Selectable ys) :
    Selectable xs :=
  ⟨(h.map COutput.coin).nodup_iff.mpr hcoins.distinct,
    fun output houtput => hcoins.moneyRange output (h.mem_iff.mp houtput)⟩

theorem Selectable.range {vCoins : List COutput} (hcoins : Selectable vCoins) :
    ∀ output ∈ vCoins, 0 ≤ output.nValue ∧ output.nValue < 2 ^ 63 - 1 := by
  intro output houtput
  have h := moneyRange_iff.mp (hcoins.moneyRange output houtput)
  exact ⟨h.1, h.2.trans_lt (by decide)⟩

/-- The order of the coins does not matter. -/
theorem Selects.perm {r : CoinRequest} {xs ys : List COutput} (h : xs.Perm ys) {fOk : Bool}
    {setCoinsRet : Finset Coin} {nValueRet : Int} (hsel : r.Selects xs fOk setCoinsRet nValueRet) :
    r.Selects ys fOk setCoinsRet nValueRet := by
  obtain ⟨htotal, hset, hempty⟩ := hsel
  have hsum : total (r.eligibles xs) = total (r.eligibles ys) :=
    ((h.filter _).map COutput.nValue).sum_eq
  refine ⟨hsum ▸ htotal, fun hok => ?_, hempty⟩
  obtain ⟨hmem, hvalue, hcovers, hleast⟩ := hset hok
  refine ⟨fun c hc => ?_, hvalue, hcovers, fun output houtput => hleast output (h.mem_iff.mpr houtput)⟩
  obtain ⟨output, houtput, hout⟩ := hmem c hc
  exact ⟨output, h.mem_iff.mp houtput, hout⟩

/-- Coin selection is sound and complete, if the values below the target and a cent add up to a
64-bit value: whatever the random choices are, the selection succeeds exactly when the coins that
may be selected cover the target. -/
theorem selectCoinsMinConf_exact (r : CoinRequest) (random : Randomness) (vCoins : List COutput)
    (hcoins : Selectable vCoins)
    (htarget : moneyRange (r.nTargetValue + cent) = true)
    (hlower : total (r.lower vCoins) < 2 ^ 63) :
    ∃ fOk setCoinsRet nValueRet,
      r.selectCoinsMinConf random vCoins = .ok (fOk, setCoinsRet, nValueRet) ∧
      r.Selects vCoins fOk setCoinsRet nValueRet := by
  have hperm := random.shuffle_perm vCoins
  unfold selectCoinsMinConf
  generalize random.shuffle vCoins = shuffled at hperm ⊢
  have hshuffled := hcoins.perm hperm
  have hrange := hshuffled.range
  have htotal : total (r.lower ([] ++ shuffled)) < 2 ^ 63 := by
    rw [List.nil_append, total, lower, ((hperm.filter _).map COutput.nValue).sum_eq]
    exact hlower
  rcases scan_spec (Scanned.start r) (CTransaction.inRange_of_moneyRange htarget) hrange htotal with
    ⟨output, houtput, hin, heq, hscan⟩ | ⟨s, hscan, hs⟩
  · rw [hscan]
    refine ⟨true, _, _, rfl, ?_⟩
    exact (selects_exact houtput hin heq fun o ho => (hrange o ho).1).perm hperm
  · rw [hscan]
    rw [List.nil_append] at hs
    rcases choose_spec hs hshuffled.distinct (fun o ho => (hrange o ho).1) random.rand with
      ⟨coins, hchoose, hpays, hcovers⟩ | ⟨hchoose, hless⟩
    · refine ⟨true, (inserted coins).1, (inserted coins).2, ?_, (hpays.selects hcovers).perm hperm⟩
      refine except_bind_eq_ok.mpr ⟨.inr s, rfl, ?_⟩
      dsimp only
      rw [hchoose]
      rfl
    · have hnone : r.Selects shuffled false ∅ 0 :=
        ⟨⟨fun h => absurd h (by decide), fun h => absurd h (not_le.mpr hless)⟩,
          fun h => absurd h (by decide), fun _ => rfl⟩
      refine ⟨false, ∅, 0, except_bind_eq_ok.mpr ⟨.inr s, rfl, ?_⟩, hnone.perm hperm⟩
      dsimp only
      rw [hchoose]
      rfl

/-- A selection that succeeds is sound, whatever the limits of its arithmetic are. -/
theorem selectCoinsMinConf_ok {r : CoinRequest} {random : Randomness} {vCoins : List COutput}
    {setCoinsRet : Finset Coin} {nValueRet : Int} (hcoins : Selectable vCoins)
    (h : r.selectCoinsMinConf random vCoins = .ok (true, setCoinsRet, nValueRet)) :
    r.Selects vCoins true setCoinsRet nValueRet := by
  have hperm := random.shuffle_perm vCoins
  unfold selectCoinsMinConf at h
  generalize random.shuffle vCoins = shuffled at hperm h
  have hshuffled := hcoins.perm hperm
  have hrange := hshuffled.range
  obtain ⟨found, hscan, h⟩ := except_bind_eq_ok.mp h
  refine Selects.perm hperm ?_
  rcases scan_ok (Scanned.start r) (fun o ho => (hrange o ho).2) hscan with
    ⟨output, houtput, hin, heq, rfl⟩ | ⟨s, rfl, hs⟩
  · obtain ⟨-, hinserted⟩ := Prod.mk.inj (Except.ok.inj h)
    obtain ⟨rfl, rfl⟩ := Prod.mk.inj hinserted
    exact selects_exact houtput hin heq fun o ho => (hrange o ho).1
  · dsimp only at h
    rcases choose_spec hs hshuffled.distinct (fun o ho => (hrange o ho).1) random.rand with
      ⟨coins, hchoose, hpays, hcovers⟩ | ⟨hchoose, -⟩
    · rw [hchoose] at h
      obtain ⟨-, hinserted⟩ := Prod.mk.inj (Except.ok.inj h)
      obtain ⟨rfl, rfl⟩ := Prod.mk.inj hinserted
      exact hpays.selects hcovers
    · rw [hchoose] at h
      cases h

def keepOrder : Randomness := ⟨id, fun vCoins => List.Perm.refl vCoins, fun _ _ _ => true⟩

/-- A coin of a transaction with one output. -/
def sampleCoin (nValue : Int) (nLockTime : Nat) : COutput :=
  ⟨(⟨1, 0, [], [⟨nValue, []⟩], nLockTime⟩, 0), 1⟩

def sampleRequest (nTargetValue : Int) : CoinRequest := ⟨fun _ => true, nTargetValue, 0, 1, 10⟩

theorem selectCoinsMinConf_exact_sample :
    ∃ fOk setCoinsRet nValueRet,
      (sampleRequest 5).selectCoinsMinConf keepOrder [sampleCoin 3 0, sampleCoin 4 1] =
        .ok (fOk, setCoinsRet, nValueRet) ∧
      (sampleRequest 5).Selects [sampleCoin 3 0, sampleCoin 4 1] fOk setCoinsRet nValueRet :=
  selectCoinsMinConf_exact (sampleRequest 5) keepOrder [sampleCoin 3 0, sampleCoin 4 1]
    ⟨by decide, by decide⟩ (by decide) (by decide)

/-- Ninety-three coins of 999 million, more than there is. -/
def overflowingCoins : List COutput :=
  (List.range 93).map fun nLockTime => sampleCoin (999000000 * coin) nLockTime

/-- The total of the small coins can leave the 64-bit values, so that nothing is returned. -/
theorem selectCoinsMinConf_overflows :
    ∃ (r : CoinRequest) (random : Randomness) (vCoins : List COutput),
      Selectable vCoins ∧ 0 < r.nTargetValue ∧ moneyRange (r.nTargetValue + cent) = true ∧
      r.nTargetValue ≤ total (r.eligibles vCoins) ∧
      ∀ setCoinsRet nValueRet,
        r.selectCoinsMinConf random vCoins ≠ .ok (true, setCoinsRet, nValueRet) := by
  refine ⟨sampleRequest (maxMoney - cent), keepOrder, overflowingCoins, ⟨by decide +kernel,
    by decide +kernel⟩, by decide, by decide, by decide +kernel, fun setCoinsRet nValueRet h => ?_⟩
  obtain ⟨found, hscan, -⟩ := except_bind_eq_ok.mp h
  have hfails : ((sampleRequest (maxMoney - cent)).scan ⟨(2 ^ 63 - 1, none), [], 0⟩
      overflowingCoins).isOk = false := by decide +kernel
  rw [show (sampleRequest (maxMoney - cent)).scan ⟨(2 ^ 63 - 1, none), [], 0⟩ overflowingCoins =
    .ok found from hscan] at hfails
  exact Bool.true_eq_false.mp hfails

end CoinRequest

end NoLimitCoin
