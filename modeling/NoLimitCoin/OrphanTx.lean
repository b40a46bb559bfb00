import NoLimitCoin.MemPool

/-!
# Orphan transactions

A transaction whose inputs are not known yet waits in `mapOrphanTransactions`;
`mapOrphanTransactionsByPrev` has, for the hash of a transaction, the orphans that spend an output
of it.  The `tx` branch of `ProcessMessage` tries the orphans again when a transaction they
depend on is accepted.
-/

namespace NoLimitCoin

open Prog NodeM

/-- `MAX_ORPHAN_TRANSACTIONS`. -/
def maxOrphanTransactions : Nat := maxBlockSize / 100

/-- `m[k]` of a `std::map`: a key that is not there is inserted with the default value. -/
def Map.subscript {K V : Type} [Ord K] [Std.TransOrd K] (m : Map K V) (k : K) (default : V) :
    V × Map K V :=
  match m[k]? with
  | some v => (v, m)
  | none => (default, m.insert k default)

/-- `CTransaction()`. -/
def CTransaction.default : CTransaction := ⟨currentVersion, 0, [], [], 0⟩

structure OrphanTxs where
  mapOrphanTransactions : Map Uint256 CTransaction
  mapOrphanTransactionsByPrev : Map Uint256 (Finset Uint256)

namespace OrphanTxs

/-- The loop of `AddOrphanTx` over the inputs. -/
def indexInput (hash : Uint256) (byPrev : Map Uint256 (Finset Uint256)) (txin : CTxIn) :
    Map Uint256 (Finset Uint256) :=
  let (hashes, byPrev) := Map.subscript byPrev txin.prevout.hash ∅
  byPrev.insert txin.prevout.hash (insert hash hashes)

/-- `AddOrphanTx`. -/
def addOrphanTx (env : Env) (orphans : OrphanTxs) (tx : CTransaction) : Bool × OrphanTxs :=
  let hash := tx.getHash env
  if orphans.mapOrphanTransactions.contains hash then (false, orphans)
  else if 5000 < tx.getSerializeSize then (false, orphans)
  else (true, {
    mapOrphanTransactions := orphans.mapOrphanTransactions.insert hash tx
    mapOrphanTransactionsByPrev :=
      tx.vin.foldl (indexInput hash) orphans.mapOrphanTransactionsByPrev })

/-- The loop of `EraseOrphanTx` over the inputs. -/
def unindexInput (hash : Uint256) (byPrev : Map Uint256 (Finset Uint256)) (txin : CTxIn) :
    Map Uint256 (Finset Uint256) :=
  let (hashes, byPrev) := Map.subscript byPrev txin.prevout.hash ∅
  let byPrev := byPrev.insert txin.prevout.hash (hashes.erase hash)
  if hashes.erase hash = ∅ then byPrev.erase txin.prevout.hash else byPrev

/-- `EraseOrphanTx`. -/
def eraseOrphanTx (orphans : OrphanTxs) (hash : Uint256) : OrphanTxs :=
  match orphans.mapOrphanTransactions[hash]? with
  | none => orphans
  | some tx => {
    mapOrphanTransactions := orphans.mapOrphanTransactions.erase hash
    mapOrphanTransactionsByPrev :=
      tx.vin.foldl (unindexInput hash) orphans.mapOrphanTransactionsByPrev }

/-- The orphan that `LimitOrphanTxSize` evicts for a random hash: the first one from there on, or
the first of all. -/
def evicted (orphans : OrphanTxs) (randomhash : Uint256) : Option Uint256 :=
  let hashes := orphans.mapOrphanTransactions.keys
  (hashes.find? fun hash => decide (randomhash ≤ hash)).or hashes.head?

/-- The loop of `LimitOrphanTxSize`; `random` has the hashes that `GetRandHash` returns.  Every
round evicts an orphan, so `fuel` is how many there are. -/
def limitLoop (nMaxOrphans : Nat) : (fuel : Nat) → (random : Nat → Uint256) → (nEvicted : Nat) →
    OrphanTxs → Nat × OrphanTxs
  | 0, _, nEvicted, orphans => (nEvicted, orphans)
  | fuel + 1, random, nEvicted, orphans =>
    if nMaxOrphans < orphans.mapOrphanTransactions.size then
      match orphans.evicted (random 0) with
      | none => (nEvicted, orphans)
      | some hash => limitLoop nMaxOrphans fuel (fun n => random (n + 1)) (nEvicted + 1)
          (orphans.eraseOrphanTx hash)
    else (nEvicted, orphans)

/-- `LimitOrphanTxSize`: how many orphans are evicted, and those that stay. -/
def limitOrphanTxSize (orphans : OrphanTxs) (nMaxOrphans : Nat) (random : Nat → Uint256) :
    Nat × OrphanTxs :=
  limitLoop nMaxOrphans orphans.mapOrphanTransactions.size random 0 orphans

end OrphanTxs

/-! ## The tx message -/

/-- The text that stands for `*pfMissingInputs = true`. -/
def missingInputs : Exit := .reject 0 "pfMissingInputs"

/-- The local state of the `tx` branch: the part of `vWorkQueue` that has not been looked at yet,
and `vEraseQueue`. -/
structure OrphanWork where
  orphans : OrphanTxs
  vWorkQueue : List Uint256
  vEraseQueue : List Uint256

namespace OrphanWork

/-- Try an orphan again. -/
def tryOrphan (env : Env) (work : OrphanWork) (orphanTxHash : Uint256) : NodeM OrphanWork := do
  let (orphanTx, mapOrphanTransactions) :=
    Map.subscript work.orphans.mapOrphanTransactions orphanTxHash CTransaction.default
  let work := { work with orphans := { work.orphans with mapOrphanTransactions } }
  match ← attempt (orphanTx.acceptToMemoryPool env true) with
  | .ok () => pure { work with
      vWorkQueue := work.vWorkQueue ++ [orphanTxHash]
      vEraseQueue := work.vEraseQueue ++ [orphanTxHash] }
  | .error (.abort what) => throw (.abort what)
  | .error e =>
    if e = missingInputs then pure work
    else pure { work with vEraseQueue := work.vEraseQueue ++ [orphanTxHash] }

/-- The orphans that depend on the next accepted transaction. -/
def tryDependants (env : Env) (work : OrphanWork) (hashPrev : Uint256) (rest : List Uint256) :
    NodeM OrphanWork :=
  let (hashes, mapOrphanTransactionsByPrev) :=
    Map.subscript work.orphans.mapOrphanTransactionsByPrev hashPrev ∅
  (hashes.sort (· ≤ ·)).foldlM (tryOrphan env) { work with
    orphans := { work.orphans with mapOrphanTransactionsByPrev }
    vWorkQueue := rest }

/-- The loop over `vWorkQueue`.  Every orphan is accepted once, so `fuel` is one more than there
are orphans. -/
def processQueue (env : Env) : (fuel : Nat) → OrphanWork → NodeM OrphanWork
  | 0, work => match work.vWorkQueue with
    | [] => pure work
    | _ :: _ => throw (.abort "vWorkQueue")
  | fuel + 1, work => match work.vWorkQueue with
    | [] => pure work
    | hashPrev :: rest => do
      let work ← work.tryDependants env hashPrev rest
      processQueue env fuel work

end OrphanWork

/-- What the `tx` branch of `ProcessMessage` does with the orphans. -/
def processTxMessage (env : Env) (random : Nat → Uint256) (orphans : OrphanTxs)
    (tx : CTransaction) : NodeM OrphanTxs := do
  let hash := tx.getHash env
  match ← attempt (tx.acceptToMemoryPool env true) with
  | .ok () => do
    let work ← OrphanWork.processQueue env (orphans.mapOrphanTransactions.size + 1)
      ⟨orphans, [hash], [hash]⟩
    pure (work.vEraseQueue.foldl OrphanTxs.eraseOrphanTx work.orphans)
  | .error (.abort what) => throw (.abort what)
  | .error e =>
    if e = missingInputs then
      pure ((orphans.addOrphanTx env tx).2.limitOrphanTxSize maxOrphanTransactions random).2
    else pure orphans

end NoLimitCoin
