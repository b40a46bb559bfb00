import NoLimitCoin.Fetched
import NoLimitCoin.Lib.MapRel

/-!
# Connecting a transaction a second time

`ConnectBlock` and `CreateNewBlock` run `FetchInputs` and `ConnectInputs` against index entries
that are pending.  Two such runs may differ in the positions of the entries, in the block files
and in the block that the transaction is for.  As long as the entries of the second run stand for
those of the first, a transaction that the first has connected is connected by the second.

Results:
1. `fetchInputs_run`: `FetchInputs` succeeds where every previous transaction can be read.
2. `fetchInputs_again`: the second run fetches what the first has fetched.
3. `connectInputs_again`: the second run connects what the first has connected.
-/

namespace NoLimitCoin

open Prog NodeM

/-! ## Fetching from a disk that works -/

/-- Every disk operation to come works. -/
def World.DiskWorks (w : World) : Prop := w.sys.io = fun _ => true

section disk

variable {w : World}

theorem bind_of_ok {α β : Type} {x : NodeM α} {f : α → NodeM β} {a : α} {w' : World}
    (h : x w = .ok a w') : (x >>= f) w = f a w' := by
  rw [bind_run, h]

theorem diskOk_run (h : w.DiskWorks) : diskOk w = .ok true w := by
  obtain ⟨node, sys, log⟩ := w
  obtain ⟨adjustedTime, io, diskSpace, catchingUp, freeTxLimit⟩ := sys
  obtain rfl : io = fun _ => true := h
  rfl

theorem readTxAt_run (h : w.DiskWorks) (pos : CDiskTxPos) :
    readTxAt pos w = .ok (if BlockFiles.validFile pos.nFile then
      w.node.files.txAt[(⟨pos.nFile, pos.nTxPos⟩ : FilePos)]? else none) w := by
  rw [readTxAt, bind_of_ok (diskOk_run h), getNode_bind, Bool.true_and]
  cases BlockFiles.validFile pos.nFile <;> rfl

theorem readBlockAt_run (env : Env) (h : w.DiskWorks) (nFile nBlockPos : Nat) :
    readBlockAt env nFile nBlockPos false w = .ok (if BlockFiles.validFile nFile then
      w.node.files.blockAt[(⟨nFile, nBlockPos⟩ : FilePos)]?.map fun block =>
        { block with vtx := [], vchBlockSig := [] } else none) w := by
  rw [readBlockAt, bind_of_ok (diskOk_run h), getNode_bind, Bool.true_and]
  cases BlockFiles.validFile nFile with
  | false => rfl
  | true =>
    rw [if_neg (by decide), if_pos rfl]
    cases w.node.files.blockAt[(⟨nFile, nBlockPos⟩ : FilePos)]? <;> rfl

end disk

namespace CTransaction

/-- The previous transaction of an input can be had, and has the output. -/
def Available (node : Node) (mapTestPool : Map Uint256 CTxIndex) (txin : CTxIn) : Prop :=
  ∃ txindex txPrev, node.foundIndex mapTestPool true txin.prevout.hash = some txindex ∧
    node.prevTxAt txin.prevout.hash txindex.pos = some txPrev ∧
    txin.prevout.n < txPrev.vout.length ∧ txin.prevout.n < txindex.vSpent.length

section run

variable {mapTestPool : Map Uint256 CTxIndex} {fBlock fMiner : Bool} {w : World}

theorem fetchFromPool_run {hash : Uint256} {txPrev : CTransaction}
    (h : w.node.mempool.mapTx[hash]? = some txPrev) (txindex : CTxIndex) :
    fetchFromPool (some txindex) hash w = .ok (txindex, txPrev) w := by
  rw [fetchFromPool, getNode_bind, h]
  rfl

theorem fetchInput_run (hflags : (fBlock || fMiner) = true) (hdisk : w.DiskWorks) {txin : CTxIn}
    (h : Available w.node mapTestPool txin) (inputs : MapPrevTx) :
    ∃ inputs', fetchInput mapTestPool fBlock fMiner inputs txin w = .ok inputs' w := by
  obtain ⟨txindex, txPrev, hfound, hprev, -⟩ := h
  cases hcontains : inputs.contains txin.prevout.hash with
  | true => exact ⟨inputs, by rw [fetchInput, if_pos hcontains]; rfl⟩
  | false =>
    refine ⟨inputs.insert txin.prevout.hash (txindex, txPrev), ?_⟩
    have hread : (if (fBlock || fMiner) && mapTestPool.contains txin.prevout.hash then
        pure mapTestPool[txin.prevout.hash]? else readTxIndex txin.prevout.hash : NodeM _) w =
          .ok (some txindex) w := by
      rw [hflags, ← hfound, Node.foundIndex]
      split <;> rfl
    rw [fetchInput, if_neg (Bool.eq_false_iff.mp hcontains), bind_of_ok hread]
    dsimp only
    rw [Node.prevTxAt] at hprev
    by_cases hpool : txindex.pos = .memPool
    · rw [if_pos hpool] at hprev
      rw [if_pos hpool, bind_of_ok (fetchFromPool_run hprev _)]
      rfl
    · rw [if_neg hpool] at hprev
      rw [if_neg hpool, bind_of_ok (readTxAt_run hdisk _), hprev]
      rfl

theorem fetchLoop_run (hflags : (fBlock || fMiner) = true) (hdisk : w.DiskWorks)
    {vin : List CTxIn} (h : ∀ txin ∈ vin, Available w.node mapTestPool txin) (inputs : MapPrevTx) :
    ∃ inputs', vin.foldlM (fetchInput mapTestPool fBlock fMiner) inputs w = .ok inputs' w := by
  induction vin generalizing inputs with
  | nil => exact ⟨inputs, rfl⟩
  | cons txin vin ih =>
    obtain ⟨htxin, hvin⟩ := List.forall_mem_cons.mp h
    obtain ⟨inputs₁, hone⟩ := fetchInput_run hflags hdisk htxin inputs
    obtain ⟨inputs', hrest⟩ := ih hvin inputs₁
    exact ⟨inputs', by rw [List.foldlM_cons, bind_of_ok hone]; exact hrest⟩

/-- What is fetched for a hash that has an index entry. -/
theorem FetchedInputs.lookup {node : Node} {vin : List CTxIn} {inputs : MapPrevTx}
    (hflags : (fBlock || fMiner) = true)
    (h : FetchedInputs node mapTestPool fBlock fMiner vin inputs) {hash : Uint256}
    {prev : CTxIndex × CTransaction} (hlookup : inputs[hash]? = some prev) :
    node.foundIndex mapTestPool true hash = some prev.1 ∧
      node.prevTxAt hash prev.1.pos = some prev.2 := by
  have hfetched := h.entries hash prev hlookup
  unfold Node.Fetched at hfetched
  rw [hflags] at hfetched
  cases hfound : node.foundIndex mapTestPool true hash with
  | none =>
    rw [hfound] at hfetched
    exact absurd hfetched.1 (by decide)
  | some txindex =>
    rw [hfound] at hfetched
    obtain ⟨heq, hprev⟩ := hfetched
    rw [heq]
    exact ⟨rfl, hprev⟩

/-- `FetchInputs` succeeds where every previous transaction can be had. -/
theorem fetchInputs_run (hflags : (fBlock || fMiner) = true) (hdisk : w.DiskWorks)
    {tx : CTransaction} (hbase : tx.isCoinBase = false)
    (h : ∀ txin ∈ tx.vin, Available w.node mapTestPool txin) :
    ∃ inputs, tx.fetchInputs mapTestPool fBlock fMiner w = .ok inputs w := by
  obtain ⟨inputs, hloop⟩ := fetchLoop_run hflags hdisk h ∅
  have hempty : FetchedInputs w.node mapTestPool fBlock fMiner [] ∅ := by
    refine ⟨fun hash prev hlookup => ?_, fun hash => ?_⟩
    · exact absurd hlookup (by simp)
    · rw [Map.contains_iff]
      simp
  have hfetched := fetchLoop_ok hempty hloop
  have hall : tx.vin.all (outputExists inputs) = true := by
    refine List.all_eq_true.mpr fun txin hmem => ?_
    obtain ⟨prev, hlookup⟩ :=
      (Map.contains_iff _ _).mp ((hfetched.keys txin.prevout.hash).mpr ⟨txin, hmem, rfl⟩)
    obtain ⟨hfound, hprev⟩ := hfetched.lookup hflags hlookup
    obtain ⟨txindex, txPrev, hfound', hprev', hn, hslot⟩ := h txin hmem
    obtain rfl := Option.some.inj (hfound.symm.trans hfound')
    obtain rfl := Option.some.inj (hprev.symm.trans hprev')
    rw [outputExists, hlookup]
    exact Bool.and_eq_true_iff.mpr ⟨decide_eq_true hn, decide_eq_true hslot⟩
  refine ⟨inputs, ?_⟩
  rw [fetchInputs, hbase, if_neg Bool.false_ne_true, bind_of_ok hloop, hall]
  rfl

/-- What `FetchInputs` has got for an input. -/
theorem fetchInputs_input (hflags : (fBlock || fMiner) = true) {tx : CTransaction}
    {inputs : MapPrevTx} {w' : World} (hbase : tx.isCoinBase = false)
    (h : tx.fetchInputs mapTestPool fBlock fMiner w = .ok inputs w') {txin : CTxIn}
    (hmem : txin ∈ tx.vin) : ∃ prev, inputs[txin.prevout.hash]? = some prev ∧
      w.node.foundIndex mapTestPool true txin.prevout.hash = some prev.1 ∧
      w.node.prevTxAt txin.prevout.hash prev.1.pos = some prev.2 ∧
      txin.prevout.n < prev.2.vout.length ∧ txin.prevout.n < prev.1.vSpent.length := by
  obtain ⟨hfetched, hexists⟩ := fetchInputs_ok hbase h
  have houtput := hexists txin hmem
  obtain ⟨prev, hlookup⟩ :=
    (Map.contains_iff _ _).mp ((hfetched.keys txin.prevout.hash).mpr ⟨txin, hmem, rfl⟩)
  rw [outputExists, hlookup] at houtput
  obtain ⟨hn, hslot⟩ := Bool.and_eq_true_iff.mp houtput
  obtain ⟨hfound, hat⟩ := hfetched.lookup hflags hlookup
  exact ⟨prev, hlookup, hfound, hat, of_decide_eq_true hn, of_decide_eq_true hslot⟩

/-- On a disk that works `FetchInputs` leaves the state as it is. -/
theorem fetchInputs_same (hflags : (fBlock || fMiner) = true) (hdisk : w.DiskWorks)
    {tx : CTransaction} {inputs : MapPrevTx} {w' : World}
    (h : tx.fetchInputs mapTestPool fBlock fMiner w = .ok inputs w') : w' = w := by
  cases hbase : tx.isCoinBase with
  | true =>
    rw [fetchInputs, hbase, if_pos rfl] at h
    exact (pure_eq_ok.mp h).2
  | false =>
    obtain ⟨inputs', hrun⟩ := fetchInputs_run hflags hdisk hbase fun txin hmem => by
      obtain ⟨prev, -, hfound, hat, hn, hslot⟩ := fetchInputs_input hflags hbase h hmem
      exact ⟨prev.1, prev.2, hfound, hat, hn, hslot⟩
    exact (EStateM.Result.ok.inj (h.symm.trans hrun)).2

end run

end CTransaction

/-! ## The second run -/

/-- The nodes of two runs, and the blocks that the transaction is for. -/
structure Runs where
  node : Node
  pindex : Option Uint256
  nodeAgain : Node
  pindexAgain : Option Uint256

namespace Node

theorem foundIndex_insert (node : Node) (queue : Map Uint256 CTxIndex) (hash k : Uint256)
    (txindex : CTxIndex) : node.foundIndex (queue.insert hash txindex) true k =
      if hash = k then some txindex else node.foundIndex queue true k := by
  unfold foundIndex
  rw [Map.getElem?_insert, Bool.true_and]
  by_cases heq : hash = k
  · rw [if_pos heq, if_pos heq, if_pos]
    exact (Map.contains_iff _ _).mpr ⟨txindex, by rw [Map.getElem?_insert, if_pos heq]⟩
  · rw [if_neg heq, if_neg heq, Bool.true_and]
    have hcontains : (queue.insert hash txindex).contains k = queue.contains k := by
      rw [Bool.eq_iff_iff, Map.contains_iff, Map.contains_iff, Map.getElem?_insert, if_neg heq]
    rw [hcontains]

end Node

namespace Runs

variable {r : Runs}

/-- An index entry of the first run, and one of the second that stands for it: the same slots are
free, and where the first leads to a transaction that has outputs, the second leads to the same
transaction, and to a mature one if the first does. -/
structure StandsFor (r : Runs) (hash : Uint256) (a b : CTxIndex) : Prop where
  slots : a.vSpent.map CDiskTxPos.isNull = b.vSpent.map CDiskTxPos.isNull
  previous : ∀ tx, r.node.prevTxAt hash a.pos = some tx → tx.vout ≠ [] →
    r.nodeAgain.prevTxAt hash b.pos = some tx
  mature : ∀ tx, r.node.prevTxAt hash a.pos = some tx →
    CTransaction.spendsImmature r.node r.pindex tx a.pos = false →
      CTransaction.spendsImmature r.nodeAgain r.pindexAgain tx b.pos = false

/-- The pending entries of the second run, over its database, stand for those of the first. -/
def QueueStands (r : Runs) (queue queue' : Map Uint256 CTxIndex) : Prop :=
  ∀ hash, Option.Rel (r.StandsFor hash) (r.node.foundIndex queue true hash)
    (r.nodeAgain.foundIndex queue' true hash)

/-- What the two runs have fetched for a hash. -/
structure Alike (r : Runs) (hash : Uint256) (prev prev' : CTxIndex × CTransaction) : Prop where
  tx : prev'.2 = prev.2
  stands : r.StandsFor hash prev.1 prev'.1
  origin : r.node.prevTxAt hash prev.1.pos = some prev.2

namespace StandsFor

variable {hash : Uint256} {a b : CTxIndex}

theorem length_eq (h : r.StandsFor hash a b) : a.vSpent.length = b.vSpent.length := by
  have hslots := congrArg List.length h.slots
  rwa [List.length_map, List.length_map] at hslots

theorem slot (h : r.StandsFor hash a b) {n : Nat} {p : CDiskTxPos} (hp : a.vSpent[n]? = some p) :
    ∃ q, b.vSpent[n]? = some q ∧ q.isNull = p.isNull := by
  have hslots := congrArg (·[n]?) h.slots
  rw [List.getElem?_map, List.getElem?_map, hp] at hslots
  obtain ⟨q, hq, hnull⟩ := Option.map_eq_some_iff.mp hslots.symm
  exact ⟨q, hq, hnull⟩

/-- Both outputs are marked as spent. -/
theorem spend (h : r.StandsFor hash a b) (n : Nat) {pos pos' : CDiskTxPos}
    (hnull : pos.isNull = pos'.isNull) :
    r.StandsFor hash { a with vSpent := a.vSpent.set n pos }
      { b with vSpent := b.vSpent.set n pos' } := by
  refine ⟨?_, h.previous, h.mature⟩
  rw [List.map_set, List.map_set, h.slots, hnull]

end StandsFor

theorem QueueStands.lookup {queue queue' : Map Uint256 CTxIndex} (h : r.QueueStands queue queue')
    {hash : Uint256} {a : CTxIndex} (ha : r.node.foundIndex queue true hash = some a) :
    ∃ b, r.nodeAgain.foundIndex queue' true hash = some b ∧ r.StandsFor hash a b := by
  have hrel := h hash
  rw [ha] at hrel
  cases hb : r.nodeAgain.foundIndex queue' true hash with
  | none =>
    rw [hb] at hrel
    cases hrel
  | some b =>
    rw [hb] at hrel
    cases hrel with
    | some hab => exact ⟨b, rfl, hab⟩

theorem QueueStands.insert {queue queue' : Map Uint256 CTxIndex} (h : r.QueueStands queue queue')
    {hash : Uint256} {a b : CTxIndex} (hab : r.StandsFor hash a b) :
    r.QueueStands (queue.insert hash a) (queue'.insert hash b) := by
  intro k
  rw [Node.foundIndex_insert, Node.foundIndex_insert]
  by_cases heq : hash = k
  · rw [if_pos heq, if_pos heq]
    exact heq ▸ .some hab
  · rw [if_neg heq, if_neg heq]
    exact h k

end Runs

namespace CTransaction

variable {r : Runs}

/-- The second run fetches what the first has fetched. -/
theorem fetchInputs_again {queue queue' : Map Uint256 CTxIndex} {fBlock fMiner : Bool}
    {tx : CTransaction} {inputs : MapPrevTx} {w w₁ w' : World}
    (hflags : (fBlock || fMiner) = true) (hqueue : r.QueueStands queue queue')
    (hnode : w.node = r.node) (hagain : w'.node = r.nodeAgain) (hdisk : w'.DiskWorks)
    (hbase : tx.isCoinBase = false)
    (h : tx.fetchInputs queue fBlock fMiner w = .ok inputs w₁) :
    ∃ inputs', tx.fetchInputs queue' true false w' = .ok inputs' w' ∧
      Map.Rel r.Alike inputs inputs' := by
  have hfetched := (fetchInputs_ok hbase h).1
  rw [hnode] at hfetched
  -- what an input has led to in the first run, and the entry that stands for it
  have hprev : ∀ txin ∈ tx.vin, ∃ prev b, inputs[txin.prevout.hash]? = some prev ∧
      r.nodeAgain.foundIndex queue' true txin.prevout.hash = some b ∧
      r.StandsFor txin.prevout.hash prev.1 b ∧
      r.node.prevTxAt txin.prevout.hash prev.1.pos = some prev.2 ∧
      txin.prevout.n < prev.2.vout.length ∧ txin.prevout.n < prev.1.vSpent.length := by
    intro txin hmem
    obtain ⟨prev, hlookup, hfound, hat, hbounds⟩ := fetchInputs_input hflags hbase h hmem
    rw [hnode] at hfound hat
    obtain ⟨b, hb, hstands⟩ := hqueue.lookup hfound
    exact ⟨prev, b, hlookup, hb, hstands, hat, hbounds⟩
  have havailable : ∀ txin ∈ tx.vin, Available w'.node queue' txin := by
    intro txin hmem
    obtain ⟨prev, b, -, hb, hstands, hat, hn, hslot⟩ := hprev txin hmem
    rw [hagain]
    refine ⟨b, prev.2, hb, hstands.previous _ hat ?_, hn, hstands.length_eq ▸ hslot⟩
    exact List.ne_nil_of_length_pos (Nat.zero_lt_of_lt hn)
  obtain ⟨inputs', hrun⟩ := @fetchInputs_run queue' true false w' rfl hdisk tx hbase havailable
  refine ⟨inputs', hrun, fun hash => ?_⟩
  have hfetched' := (fetchInputs_ok hbase hrun).1
  rw [hagain] at hfetched'
  cases hlookup : inputs[hash]? with
  | none =>
    have hnone : inputs'.contains hash = false := by
      refine Bool.eq_false_iff.mpr fun hcontains => ?_
      have hold := (hfetched.keys hash).mpr ((hfetched'.keys hash).mp hcontains)
      rw [(Map.contains_eq_false_iff _ _).mpr hlookup] at hold
      exact Bool.false_ne_true hold
    rw [(Map.contains_eq_false_iff _ _).mp hnone]
    exact .none
  | some prev =>
    have hcontains := (hfetched.keys hash).mp ((Map.contains_iff _ _).mpr ⟨prev, hlookup⟩)
    obtain ⟨prev', hlookup'⟩ := (Map.contains_iff _ _).mp ((hfetched'.keys hash).mpr hcontains)
    obtain ⟨txin, hmem, rfl⟩ := hcontains
    obtain ⟨prev₀, b, hlookup₀, hb, hstands, hat, hn, -⟩ := hprev txin hmem
    obtain rfl := Option.some.inj (hlookup₀.symm.trans hlookup)
    obtain ⟨hfound', hat'⟩ := hfetched'.lookup rfl hlookup'
    obtain rfl := Option.some.inj (hb.symm.trans hfound')
    have hsame := hstands.previous _ hat (List.ne_nil_of_length_pos (Nat.zero_lt_of_lt hn))
    rw [hlookup']
    exact .some ⟨Option.some.inj (hat'.symm.trans hsame), hstands, hat⟩

/-! ## Values -/

section values

variable {inputs inputs' : MapPrevTx}

theorem getOutputFor_again (h : Map.Rel r.Alike inputs inputs') (txin : CTxIn) :
    getOutputFor inputs' txin = getOutputFor inputs txin := by
  unfold getOutputFor
  cases hlookup : inputs[txin.prevout.hash]? with
  | none => rw [h.lookup_none hlookup]
  | some prev =>
    obtain ⟨prev', hlookup', hprev⟩ := h.lookup hlookup
    rw [hlookup']
    dsimp only
    rw [hprev.tx]

theorem sumValueIn_again (h : Map.Rel r.Alike inputs inputs') (n : Int) (vin : List CTxIn) :
    sumValueIn inputs' n vin = sumValueIn inputs n vin := by
  induction vin generalizing n with
  | nil => rfl
  | cons txin vin ih =>
    unfold sumValueIn
    rw [getOutputFor_again h]
    simp only [ih]

theorem getValueIn_again (h : Map.Rel r.Alike inputs inputs') (nBestHeight : Int)
    (tx : CTransaction) (fObservePostmine : Bool) :
    tx.getValueIn nBestHeight inputs' fObservePostmine =
      tx.getValueIn nBestHeight inputs fObservePostmine := by
  have hobserves : tx.observesPostmine nBestHeight inputs' =
      tx.observesPostmine nBestHeight inputs := by
    rw [observesPostmine, observesPostmine, h.contains_eq, h.size_eq]
  unfold getValueIn
  rw [hobserves, sumValueIn_again h]
  simp only [getOutputFor_again h]

theorem getP2SHSigOpCount_again (h : Map.Rel r.Alike inputs inputs') (tx : CTransaction) :
    tx.getP2SHSigOpCount inputs' = tx.getP2SHSigOpCount inputs := by
  unfold getP2SHSigOpCount
  simp only [getOutputFor_again h]

end values

/-! ## Connecting -/

section connect

variable {inputs inputs' : MapPrevTx}

theorem checkInput_again (h : Map.Rel r.Alike inputs inputs') {tx : CTransaction} {txin : CTxIn}
    {n v : Int} (hcheck : checkInput r.node r.pindex tx inputs n txin = .ok v) :
    checkInput r.nodeAgain r.pindexAgain tx inputs' n txin = .ok v := by
  unfold checkInput at hcheck ⊢
  cases hlookup : inputs[txin.prevout.hash]? with
  | none =>
    rw [hlookup] at hcheck
    exact absurd hcheck (by simp)
  | some prev =>
    obtain ⟨prev', hlookup', hprev⟩ := h.lookup hlookup
    obtain ⟨a, txPrev⟩ := prev
    obtain ⟨b, txPrev'⟩ := prev'
    obtain ⟨rfl, hstands, hat⟩ := hprev
    rw [hlookup] at hcheck
    rw [hlookup']
    dsimp only at hcheck ⊢
    cases hout : txPrev'.vout[txin.prevout.n]? with
    | none =>
      rw [hout] at hcheck
      exact absurd hcheck (by simp)
    | some txout =>
      rw [hout] at hcheck
      simp only [except_seq_eq_ok, require_eq_ok] at hcheck ⊢
      obtain ⟨hslot, himmature, hrest⟩ := hcheck
      refine ⟨?_, ?_, hrest⟩
      · rw [← hstands.length_eq]
        exact hslot
      · rw [hstands.mature _ hat (Bool.not_eq_true' _ ▸ himmature)]
        rfl

/-- One input is marked as spent in both runs. -/
theorem spendInput_again {env : Env} {tx : CTransaction} {pos pos' : CDiskTxPos}
    {fBlock fMiner : Bool} {queue queue' : Map Uint256 CTxIndex} {input : CTxIn × Nat}
    {acc : MapPrevTx × Map Uint256 CTxIndex} (hflags : (fBlock || fMiner) = true)
    (hheight : r.nodeAgain.nBestHeight = r.node.nBestHeight) (hnull : pos.isNull = pos'.isNull)
    (hinputs : Map.Rel r.Alike inputs inputs') (hqueue : r.QueueStands queue queue')
    (h : spendInput env r.node tx pos fBlock fMiner (inputs, queue) input = .ok acc) :
    ∃ acc', spendInput env r.nodeAgain tx pos' true false (inputs', queue') input = .ok acc' ∧
      Map.Rel r.Alike acc.1 acc'.1 ∧ r.QueueStands acc.2 acc'.2 := by
  obtain ⟨txin, i⟩ := input
  unfold spendInput at h ⊢
  dsimp only at h ⊢
  cases hlookup : inputs[txin.prevout.hash]? with
  | none =>
    rw [hlookup] at h
    exact absurd h (by simp)
  | some prev =>
    obtain ⟨prev', hlookup', hprev⟩ := hinputs.lookup hlookup
    obtain ⟨a, txPrev⟩ := prev
    obtain ⟨b, txPrev'⟩ := prev'
    obtain ⟨rfl, hstands, hat⟩ := hprev
    rw [hlookup] at h
    rw [hlookup']
    dsimp only at h ⊢
    cases hslot : a.vSpent[txin.prevout.n]? with
    | none =>
      rw [hslot] at h
      exact absurd h (by simp)
    | some p =>
      obtain ⟨q, hslot', hfree⟩ := hstands.slot hslot
      rw [hslot] at h
      rw [hslot']
      simp only [except_seq_eq_ok, require_eq_ok] at h ⊢
      obtain ⟨hp, hverify, h⟩ := h
      obtain rfl := Except.ok.inj h
      rw [hflags, if_pos rfl]
      have hspend := hstands.spend txin.prevout.n hnull
      refine ⟨_, ⟨hfree.trans hp, ?_, rfl⟩, hinputs.insert ⟨rfl, hspend, hat⟩,
        hqueue.insert hspend⟩
      rcases Bool.or_eq_true_iff.mp hverify with hskip | hverify
      · rw [hheight, Bool.true_and, (Bool.and_eq_true_iff.mp hskip).2, Bool.true_or]
      · rw [hverify, Bool.or_true]

theorem spendLoop_again {env : Env} {tx : CTransaction} {pos pos' : CDiskTxPos}
    {fBlock fMiner : Bool} {queue queue' : Map Uint256 CTxIndex} {vin : List (CTxIn × Nat)}
    {acc : MapPrevTx × Map Uint256 CTxIndex} (hflags : (fBlock || fMiner) = true)
    (hheight : r.nodeAgain.nBestHeight = r.node.nBestHeight) (hnull : pos.isNull = pos'.isNull)
    (hinputs : Map.Rel r.Alike inputs inputs') (hqueue : r.QueueStands queue queue')
    (h : vin.foldlM (spendInput env r.node tx pos fBlock fMiner) (inputs, queue) = .ok acc) :
    ∃ acc', vin.foldlM (spendInput env r.nodeAgain tx pos' true false) (inputs', queue') =
      .ok acc' ∧ r.QueueStands acc.2 acc'.2 := by
  induction vin generalizing inputs inputs' queue queue' with
  | nil =>
    obtain rfl := Except.ok.inj h
    exact ⟨_, rfl, hqueue⟩
  | cons input vin ih =>
    rw [List.foldlM_cons] at h
    obtain ⟨⟨inputs₁, queue₁⟩, hone, h⟩ := except_bind_eq_ok.mp h
    obtain ⟨⟨inputs₁', queue₁'⟩, hone', hinputs₁, hqueue₁⟩ :=
      spendInput_again hflags hheight hnull hinputs hqueue hone
    obtain ⟨acc', hrest, hfinal⟩ := ih hinputs₁ hqueue₁ h
    refine ⟨acc', ?_, hfinal⟩
    rw [List.foldlM_cons, hone']
    exact hrest

theorem checkInputs_again (h : Map.Rel r.Alike inputs inputs') {tx : CTransaction}
    {vin : List CTxIn} {n v : Int}
    (hcheck : vin.foldlM (checkInput r.node r.pindex tx inputs) n = .ok v) :
    vin.foldlM (checkInput r.nodeAgain r.pindexAgain tx inputs') n = .ok v := by
  induction vin generalizing n with
  | nil => exact hcheck
  | cons txin vin ih =>
    rw [List.foldlM_cons] at hcheck ⊢
    obtain ⟨n', hone, hrest⟩ := except_bind_eq_ok.mp hcheck
    rw [checkInput_again h hone]
    exact ih hrest

theorem checkFee_block {tx : CTransaction} {n : Int} {fBlock : Bool}
    (h : tx.checkFee n fBlock = .ok ()) : tx.checkFee n true = .ok () := by
  unfold checkFee at h ⊢
  obtain ⟨nValueOut, hout, h⟩ := except_bind_eq_ok.mp h
  rw [hout]
  simp only [except_seq_eq_ok, require_eq_ok] at h
  show (do
    require (decide (nValueOut ≤ n)) _
    require (decide (0 ≤ n - nValueOut)) _
    require (decide (tx.getMinFeeDefault ≤ n - nValueOut)) _
    require (moneyRange (n - nValueOut)) _ : Except Exit Unit) = .ok ()
  simp only [except_seq_eq_ok, require_eq_ok]
  exact h

/-- The second run connects what the first has connected. -/
theorem connectInputs_again {env : Env} {tx : CTransaction} {pos pos' : CDiskTxPos}
    {fBlock fMiner : Bool} {queue queue' queue₁ : Map Uint256 CTxIndex}
    (hflags : (fBlock || fMiner) = true)
    (hheight : r.nodeAgain.nBestHeight = r.node.nBestHeight) (hnull : pos.isNull = pos'.isNull)
    (hinputs : Map.Rel r.Alike inputs inputs') (hqueue : r.QueueStands queue queue')
    (h : tx.connectInputs env r.node inputs queue pos r.pindex fBlock fMiner = .ok queue₁) :
    ∃ queue₁', tx.connectInputs env r.nodeAgain inputs' queue' pos' r.pindexAgain true false =
      .ok queue₁' ∧ r.QueueStands queue₁ queue₁' := by
  unfold connectInputs at h ⊢
  cases hbase : tx.isCoinBase with
  | true =>
    rw [hbase, if_pos rfl] at h
    obtain rfl := Except.ok.inj h
    exact ⟨queue', rfl, hqueue⟩
  | false =>
    rw [hbase, if_neg Bool.false_ne_true] at h
    obtain ⟨n, hcheck, h⟩ := except_bind_eq_ok.mp h
    obtain ⟨⟨inputs₁, queue₂⟩, hloop, h⟩ := except_bind_eq_ok.mp h
    obtain ⟨⟨inputs₁', queue₂'⟩, hloop', hfinal⟩ :=
      spendLoop_again hflags hheight hnull hinputs hqueue hloop
    rw [if_neg Bool.false_ne_true, checkInputs_again hinputs hcheck]
    dsimp only at h hfinal
    refine ⟨queue₂', ?_, ?_⟩
    · refine except_bind_eq_ok.mpr ⟨n, rfl, except_bind_eq_ok.mpr
        ⟨(inputs₁', queue₂'), hloop', ?_⟩⟩
      cases hstake : tx.isCoinStake with
      | true => rfl
      | false =>
        rw [hstake, if_neg Bool.false_ne_true] at h
        obtain ⟨hfee, -⟩ := except_seq_eq_ok.mp h
        show (if false = true then pure queue₂' else do
          tx.checkFee n true
          pure queue₂' : Except Exit (Map Uint256 CTxIndex)) = .ok queue₂'
        rw [checkFee_block hfee]
        rfl
    · split at h
      · exact Except.ok.inj h ▸ hfinal
      · obtain ⟨-, h⟩ := except_seq_eq_ok.mp h
        exact Except.ok.inj h ▸ hfinal

end connect

end CTransaction

end NoLimitCoin
