import Mathlib.Data.List.Sort
import NoLimitCoin.BestChain

/-!
# Proof of stake

`kernel.cpp`: the stake modifier every block of the index carries, the modifier that goes into
the kernel of a coin stake, and the check of the kernel itself.
-/

namespace NoLimitCoin

open Prog NodeM

/-! ## Stake modifiers -/

def modifierIntervalRatio : Nat := 3

/-- `GetStakeModifierSelectionIntervalSection`, in seconds. -/
def getStakeModifierSelectionIntervalSection (env : Env) (nSection : Nat) : Int :=
  (env.nModifierInterval * 63) / (63 + ((63 - nSection) * (modifierIntervalRatio - 1) : Nat))

/-- `GetStakeModifierSelectionInterval`, in seconds. -/
def getStakeModifierSelectionInterval (env : Env) : Int :=
  ((List.range 64).map (getStakeModifierSelectionIntervalSection env)).sum

namespace Node

/-- The loop of `GetLastStakeModifier`. -/
def lastGenerated (node : Node) : (fuel : Nat) → CBlockIndex → CBlockIndex
  | 0, index => index
  | fuel + 1, index =>
    match index.pprev.bind node.index? with
    | none => index
    | some indexPrev =>
      if index.generatedStakeModifier then index else lastGenerated node fuel indexPrev

/-- `GetLastStakeModifier`: the modifier and the time it was generated at. -/
def getLastStakeModifier (node : Node) (index : CBlockIndex) : Option (Nat × Int) :=
  let index := node.lastGenerated node.mapBlockIndex.size index
  if index.generatedStakeModifier then some (index.nStakeModifier, index.getBlockTime) else none

/-- The candidates of `ComputeNextStakeModifier`: the blocks from `pindex` down whose time is
not before the start of the selection interval. -/
def candidates (node : Node) (nStart : Int) : (fuel : Nat) → (pindex : Option Uint256) →
    List (Int × Uint256)
  | 0, _ => []
  | fuel + 1, pindex =>
    match pindex with
    | none => []
    | some p =>
      match node.index? p with
      | none => []
      | some index =>
        if nStart ≤ index.getBlockTime then
          (index.getBlockTime, p) :: candidates node nStart fuel index.pprev
        else []

/-- The selection hash of a candidate: a proof-of-stake block is favoured over a proof-of-work
block. -/
def selectionHash (env : Env) (nStakeModifierPrev : Nat) (index : CBlockIndex) : Uint256 :=
  let hashSelection :=
    env.hashOf (serializeHash index.hashProof ++ leBytes 8 nStakeModifierPrev)
  if index.isProofOfStake then hashSelection / 2 ^ 32 else hashSelection

/-- The loop of `SelectBlockFromCandidates`: the candidate with the smallest selection hash
among those in time, the first candidate being in time whatever its time is. -/
def selectLoop (env : Env) (node : Node) (selected : List Uint256) (nStop : Int)
    (nStakeModifierPrev : Nat) : (best : Option (Uint256 × Uint256)) → List (Int × Uint256) →
    Option (Option (Uint256 × Uint256))
  | best, [] => some best
  | best, (_, p) :: rest =>
    match node.index? p with
    | none => none
    | some index =>
      if best.isSome ∧ nStop < index.getBlockTime then some best
      else if selected.contains p then
        selectLoop env node selected nStop nStakeModifierPrev best rest
      else
        let hashSelection := selectionHash env nStakeModifierPrev index
        let best := match best with
          | none => (hashSelection, p)
          | some (hashBest, pBest) =>
            if hashSelection < hashBest then (hashSelection, p) else (hashBest, pBest)
        selectLoop env node selected nStop nStakeModifierPrev (some best) rest

/-- `SelectBlockFromCandidates`. -/
def selectBlockFromCandidates (env : Env) (node : Node) (vSortedByTimestamp : List (Int × Uint256))
    (selected : List Uint256) (nStop : Int) (nStakeModifierPrev : Nat) : Option Uint256 :=
  match selectLoop env node selected nStop nStakeModifierPrev none vSortedByTimestamp with
  | some (some (_, p)) => some p
  | _ => none

/-- The rounds of `ComputeNextStakeModifier`: each one contributes a bit of the new modifier. -/
def modifierRounds (env : Env) (node : Node) (vSortedByTimestamp : List (Int × Uint256))
    (nStakeModifierPrev : Nat) : (rounds nRound : Nat) → (nStop : Int) → (selected : List Uint256) →
    (nStakeModifierNew : Nat) → Option Nat
  | 0, _, _, _, nStakeModifierNew => some nStakeModifierNew
  | rounds + 1, nRound, nStop, selected, nStakeModifierNew =>
    let nStop := nStop + getStakeModifierSelectionIntervalSection env nRound
    match selectBlockFromCandidates env node vSortedByTimestamp selected nStop
        nStakeModifierPrev with
    | none => none
    | some p =>
      match node.index? p with
      | none => none
      | some index =>
        modifierRounds env node vSortedByTimestamp nStakeModifierPrev rounds (nRound + 1) nStop
          (p :: selected) (nStakeModifierNew ||| (index.getStakeEntropyBit <<< nRound))

/-- The order of `sort` on pairs of a time and a hash. -/
def byTimestamp (a b : Int × Uint256) : Bool :=
  decide (a.1 < b.1) || (decide (a.1 = b.1) && decide (a.2 ≤ b.2))

/-- `ComputeNextStakeModifier`: the modifier, and whether it was generated here. -/
def computeNextStakeModifier (env : Env) (node : Node) (pindexPrev : Option Uint256) :
    Option (Nat × Bool) :=
  match pindexPrev with
  | none => some (0, true)
  | some prev =>
    match node.index? prev with
    | none => none
    | some indexPrev =>
      match node.getLastStakeModifier indexPrev with
      | none => none
      | some (nStakeModifier, nModifierTime) =>
        if indexPrev.getBlockTime.tdiv env.nModifierInterval ≤
            nModifierTime.tdiv env.nModifierInterval then
          some (nStakeModifier, false)
        else
          let nStart := indexPrev.getBlockTime.tdiv env.nModifierInterval * env.nModifierInterval -
            getStakeModifierSelectionInterval env
          let vSortedByTimestamp :=
            ((node.candidates nStart node.mapBlockIndex.size pindexPrev).reverse).insertionSort
              (fun a b => byTimestamp a b = true)
          (modifierRounds env node vSortedByTimestamp nStakeModifier
            (min 64 vSortedByTimestamp.length) 0 nStart [] 0).map fun m => (m, true)

/-- `GetStakeModifierChecksum`. -/
def getStakeModifierChecksum (env : Env) (node : Node) (index : CBlockIndex) : Nat :=
  let prev := match index.pprev.bind node.index? with
    | none => []
    | some indexPrev => leBytes 4 indexPrev.nStakeModifierChecksum
  env.hashOf (prev ++ leBytes 4 index.nFlags ++
    serializeHash (if index.isProofOfStake then index.hashProof else 0) ++
    leBytes 8 index.nStakeModifier) / 2 ^ (256 - 32)

end Node

/-- `CheckStakeModifierCheckpoints`. -/
def checkStakeModifierCheckpoints (nHeight nStakeModifierChecksum : Nat) : Bool :=
  if nHeight = 0 then nStakeModifierChecksum == 0xfd11f4e7 else true

/-! ## The kernel -/

namespace Node

/-- The loop of `GetKernelStakeModifier` along `pnext`, for a modifier generated a selection
interval after the block of the kernel. -/
def kernelLoop (node : Node) (nUntil : Int) : (fuel : Nat) → (nStakeModifierTime : Int) →
    CBlockIndex → Option Nat
  | 0, _, _ => none
  | fuel + 1, nStakeModifierTime, index =>
    if nUntil ≤ nStakeModifierTime then some index.nStakeModifier
    else
      match index.pnext.bind node.index? with
      | none => none
      | some indexNext =>
        kernelLoop node nUntil fuel
          (if indexNext.generatedStakeModifier then indexNext.getBlockTime else nStakeModifierTime)
          indexNext

/-- `GetKernelStakeModifier`. -/
def getKernelStakeModifier (env : Env) (node : Node) (hashBlockFrom : Uint256) : Option Nat :=
  match node.index? hashBlockFrom with
  | none => none
  | some indexFrom =>
    node.kernelLoop (indexFrom.getBlockTime + getStakeModifierSelectionInterval env)
      (node.mapBlockIndex.size + 1) indexFrom.getBlockTime indexFrom

end Node

/-- `GetWeight`. -/
def getWeight (env : Env) (nIntervalBeginning nIntervalEnd : Int) : Int :=
  min (nIntervalEnd - nIntervalBeginning - env.nStakeMinAge) nStakeMaxAge

/-- The hash of a kernel. -/
def kernelHash (env : Env) (nStakeModifier nTimeBlockFrom nTxPrevOffset nTimeTxPrev nPrevout
    nTimeTx : Nat) : Uint256 :=
  env.hashOf (leBytes 8 nStakeModifier ++ leBytes 4 nTimeBlockFrom ++ leBytes 4 nTxPrevOffset ++
    leBytes 4 nTimeTxPrev ++ leBytes 4 nPrevout ++ leBytes 4 nTimeTx)

/-- `CheckStakeKernelHash`: the proof hash, `none` for the result `false`. -/
def checkStakeKernelHash (env : Env) (node : Node) (nBits : Nat) (blockFrom : CBlock)
    (nTxPrevOffset : Nat) (txPrev : CTransaction) (prevout : COutPoint) (nTimeTx : Nat) :
    Option Uint256 :=
  if nTimeTx < txPrev.nTime then none
  else if nTimeTx < (blockFrom.nTime + env.nStakeMinAge) % 2 ^ 32 then none
  else
    match txPrev.vout[prevout.n]? with
    | none => none
    | some txout =>
      let bnTargetPerCoinDay := CBigNum.setCompact nBits
      let bnCoinDayWeight :=
        ((txout.nValue * getWeight env txPrev.nTime nTimeTx).tdiv coin).tdiv (24 * 60 * 60)
      match node.getKernelStakeModifier env (blockFrom.getHash env) with
      | none => none
      | some nStakeModifier =>
        let hashProofOfStake := kernelHash env nStakeModifier blockFrom.nTime nTxPrevOffset
          txPrev.nTime prevout.n nTimeTx
        if (hashProofOfStake : Int) ≤ bnCoinDayWeight * bnTargetPerCoinDay then
          some hashProofOfStake
        else none

/-- `CheckProofOfStake`: the proof hash. -/
def checkProofOfStake (env : Env) (tx : CTransaction) (nBits : Nat) : NodeM Uint256 := do
  require tx.isCoinStake (.reject 0 "CheckProofOfStake() : called on non-coinstake %s")
  match tx.vin with
  | [] => throw (.abort "vin[0]")
  | txin :: _ => do
    let node ← getNode
    match ← readTxFromDisk node.txdb.fresh txin.prevout with
    | none => throw (.reject 1 "CheckProofOfStake() : INFO: read txPrev failed")
    | some (txPrev, txindex) => do
      require (CTransaction.verifySignature env txPrev tx txin 0)
        (.reject 100 "CheckProofOfStake() : VerifySignature failed on coinstake %s")
      match ← readBlockAt env txindex.pos.nFile txindex.pos.nBlockPos false with
      | none => throw .returnFalse
      | some block =>
        let nTxPrevOffset := (txindex.pos.nTxPos + 2 ^ 32 - txindex.pos.nBlockPos) % 2 ^ 32
        match checkStakeKernelHash env node nBits block nTxPrevOffset txPrev txin.prevout
            tx.nTime with
        | none => throw (.reject 1 "CheckProofOfStake() : INFO: check kernel failed on coinstake %s")
        | some hashProofOfStake => pure hashProofOfStake

end NoLimitCoin
