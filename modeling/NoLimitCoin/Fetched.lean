import NoLimitCoin.Reads

/-!
# What `FetchInputs` returns

`FetchInputs` hands its caller, for the hash of every previous transaction, an index entry and
the transaction itself.  Where the two come from is a function of the node and of the pending
index entries: no later step of `ConnectInputs` or `ConnectBlock` needs to look at the loop
again.

Results:

1. `fetchInputs_ok`: every entry of the result has been fetched, and the entries are those of
   the hashes the inputs name.
2. `getOutputFor_eq_ok`, `sumValueIn_ok`, `getValueOut_ok`: the values of `GetValueIn` and
   `GetValueOut` are plain sums over spent and created outputs.
-/

namespace NoLimitCoin

open Prog NodeM

namespace Node

/-- The transaction `hash` at a position of the index: the pool's, or the one on disk. -/
def prevTxAt (node : Node) (hash : Uint256) (pos : CDiskTxPos) : Option CTransaction :=
  if pos = .memPool then node.mempool.mapTx[hash]?
  else if BlockFiles.validFile pos.nFile then
    node.files.txAt[(⟨pos.nFile, pos.nTxPos⟩ : FilePos)]?
  else none

/-- The index entry `FetchInputs` finds: a pending one, or the one of the database. -/
def foundIndex (node : Node) (mapTestPool : Map Uint256 CTxIndex) (pending : Bool)
    (hash : Uint256) : Option CTxIndex :=
  if pending && mapTestPool.contains hash then mapTestPool[hash]?
  else node.txdb.readTxIndex hash

/-- The entry `FetchInputs` makes for `hash`. -/
def Fetched (node : Node) (mapTestPool : Map Uint256 CTxIndex) (fBlock fMiner : Bool)
    (hash : Uint256) (prev : CTxIndex × CTransaction) : Prop :=
  match node.foundIndex mapTestPool (fBlock || fMiner) hash with
  | none => (fBlock || fMiner) = false ∧ node.mempool.mapTx[hash]? = some prev.2 ∧
      prev.1 = ⟨.null, List.replicate prev.2.vout.length .null⟩
  | some txindex => prev.1 = txindex ∧ node.prevTxAt hash txindex.pos = some prev.2

end Node

namespace CTransaction

theorem fetchFromPool_ok {txindex : Option CTxIndex} {hash : Uint256} {w w' : World}
    {prev : CTxIndex × CTransaction} (h : fetchFromPool txindex hash w = .ok prev w') :
    w.node.mempool.mapTx[hash]? = some prev.2 ∧
      prev.1 = txindex.getD ⟨.null, List.replicate prev.2.vout.length .null⟩ := by
  obtain ⟨node, w₁, hnode, h⟩ := bind_eq_ok.mp h
  obtain ⟨rfl, rfl⟩ := EStateM.Result.ok.inj hnode
  cases htx : w.node.mempool.mapTx[hash]? with
  | none =>
    rw [htx] at h
    exact absurd h nofun
  | some txPrev =>
    rw [htx] at h
    obtain ⟨rfl, rfl⟩ := pure_eq_ok.mp h
    exact ⟨rfl, rfl⟩

theorem readTxAt_ok {pos : CDiskTxPos} {w w' : World} {tx : CTransaction}
    (h : readTxAt pos w = .ok (some tx) w') : BlockFiles.validFile pos.nFile = true ∧
      w.node.files.txAt[(⟨pos.nFile, pos.nTxPos⟩ : FilePos)]? = some tx := by
  obtain ⟨ok, w₁, hok, h⟩ := bind_eq_ok.mp h
  obtain ⟨node, w₂, hnode, h⟩ := bind_eq_ok.mp h
  obtain ⟨rfl, rfl⟩ := EStateM.Result.ok.inj hnode
  rw [(Reads.diskOk.ok hok).node] at h
  split at h
  · next hvalid =>
    obtain ⟨htx, -⟩ := pure_eq_ok.mp h
    exact ⟨(Bool.and_eq_true _ _ ▸ hvalid).2, htx.symm⟩
  · exact absurd (pure_eq_ok.mp h).1 nofun

/-- One round of the first loop either finds the hash in the result or adds its entry. -/
theorem fetchInput_ok {mapTestPool : Map Uint256 CTxIndex} {fBlock fMiner : Bool}
    {inputs inputs' : MapPrevTx} {txin : CTxIn} {w w' : World}
    (h : fetchInput mapTestPool fBlock fMiner inputs txin w = .ok inputs' w') :
    (inputs' = inputs ∧ inputs.contains txin.prevout.hash = true) ∨
      ∃ prev, inputs' = inputs.insert txin.prevout.hash prev ∧
        w.node.Fetched mapTestPool fBlock fMiner txin.prevout.hash prev := by
  unfold fetchInput at h
  split at h
  · next hcontains =>
    obtain ⟨rfl, -⟩ := pure_eq_ok.mp h
    exact .inl ⟨rfl, hcontains⟩
  refine .inr ?_
  obtain ⟨found, w₁, hfound, h⟩ := bind_eq_ok.mp h
  have hnode : w₁.node = w.node :=
    ((Keeps.ite (Reads.pure _) (Reads.readTxIndex _) : Reads _).ok hfound).node
  have hindex : found = w.node.foundIndex mapTestPool (fBlock || fMiner) txin.prevout.hash := by
    unfold Node.foundIndex
    split at hfound
    · next hpending => rw [if_pos hpending]; exact (pure_eq_ok.mp hfound).1
    · next hpending => rw [if_neg hpending]; exact (EStateM.Result.ok.inj hfound).1.symm
  unfold Node.Fetched Node.prevTxAt
  rw [← hindex]
  cases found with
  | none =>
    dsimp only at h ⊢
    split at h
    · exact absurd h nofun
    · next hblock =>
      obtain ⟨prev, w₂, hprev, h⟩ := bind_eq_ok.mp h
      obtain ⟨rfl, -⟩ := pure_eq_ok.mp h
      obtain ⟨htx, hnew⟩ := fetchFromPool_ok hprev
      rw [hnode] at htx
      exact ⟨prev, rfl, by simpa using hblock, htx, hnew⟩
  | some txindex =>
    dsimp only at h ⊢
    split at h
    · next hpool =>
      obtain ⟨prev, w₂, hprev, h⟩ := bind_eq_ok.mp h
      obtain ⟨rfl, -⟩ := pure_eq_ok.mp h
      obtain ⟨htx, hnew⟩ := fetchFromPool_ok hprev
      rw [hnode] at htx
      exact ⟨prev, rfl, hnew, by rw [if_pos hpool]; exact htx⟩
    · next hpool =>
      obtain ⟨r, w₂, hr, h⟩ := bind_eq_ok.mp h
      cases r with
      | none => exact absurd h nofun
      | some txPrev =>
        obtain ⟨rfl, -⟩ := pure_eq_ok.mp h
        obtain ⟨hvalid, htx⟩ := readTxAt_ok hr
        rw [hnode] at htx
        exact ⟨(txindex, txPrev), rfl, rfl, by rw [if_neg hpool, if_pos hvalid]; exact htx⟩

/-- What `FetchInputs` guarantees its caller. -/
structure FetchedInputs (node : Node) (mapTestPool : Map Uint256 CTxIndex) (fBlock fMiner : Bool)
    (vin : List CTxIn) (inputs : MapPrevTx) : Prop where
  entries : ∀ hash prev, inputs[hash]? = some prev →
    node.Fetched mapTestPool fBlock fMiner hash prev
  keys : ∀ hash, inputs.contains hash = true ↔ ∃ txin ∈ vin, txin.prevout.hash = hash

theorem fetchLoop_ok {mapTestPool : Map Uint256 CTxIndex} {fBlock fMiner : Bool}
    {vin before : List CTxIn} {inputs inputs' : MapPrevTx} {w w' : World}
    (hinputs : FetchedInputs w.node mapTestPool fBlock fMiner before inputs)
    (h : vin.foldlM (fetchInput mapTestPool fBlock fMiner) inputs w = .ok inputs' w') :
    FetchedInputs w.node mapTestPool fBlock fMiner (before ++ vin) inputs' := by
  induction vin generalizing before inputs w with
  | nil =>
    obtain ⟨rfl, -⟩ := pure_eq_ok.mp h
    rw [List.append_nil]
    exact hinputs
  | cons txin vin ih =>
    rw [List.foldlM_cons] at h
    obtain ⟨inputs₁, w₁, hone, h⟩ := bind_eq_ok.mp h
    have hnode := ((Reads.fetchInput mapTestPool fBlock fMiner inputs txin).ok hone).node
    rw [← List.singleton_append, ← List.append_assoc, ← hnode]
    refine ih ?_ h
    rw [hnode]
    rcases fetchInput_ok hone with ⟨rfl, hcontains⟩ | ⟨prev, rfl, hprev⟩
    · refine ⟨hinputs.entries, fun hash => ?_⟩
      rw [hinputs.keys hash]
      constructor
      · rintro ⟨txin', hmem, rfl⟩
        exact ⟨txin', List.mem_append_left _ hmem, rfl⟩
      · rintro ⟨txin', hmem, rfl⟩
        rcases List.mem_append.mp hmem with hmem | hmem
        · exact ⟨txin', hmem, rfl⟩
        · rw [List.mem_singleton.mp hmem]
          exact (hinputs.keys _).mp hcontains
    · refine ⟨fun hash prev' hlookup => ?_, fun hash => ?_⟩
      · rw [Map.getElem?_insert] at hlookup
        split at hlookup
        · next heq =>
          rw [← heq, ← Option.some.inj hlookup]
          exact hprev
        · exact hinputs.entries hash prev' hlookup
      · rw [Map.contains_iff, Map.getElem?_insert]
        split
        · next heq =>
          exact ⟨fun _ => ⟨txin, by simp, heq⟩, fun _ => ⟨prev, rfl⟩⟩
        · next hne =>
          rw [← Map.contains_iff, hinputs.keys hash]
          constructor
          · rintro ⟨txin', hmem, heq⟩
            exact ⟨txin', List.mem_append_left _ hmem, heq⟩
          · rintro ⟨txin', hmem, heq⟩
            rcases List.mem_append.mp hmem with hmem | hmem
            · exact ⟨txin', hmem, heq⟩
            · rw [List.mem_singleton.mp hmem] at heq
              exact absurd heq hne

theorem fetchInputs_ok {tx : CTransaction} {mapTestPool : Map Uint256 CTxIndex}
    {fBlock fMiner : Bool} {inputs : MapPrevTx} {w w' : World} (hbase : tx.isCoinBase = false)
    (h : tx.fetchInputs mapTestPool fBlock fMiner w = .ok inputs w') :
    FetchedInputs w.node mapTestPool fBlock fMiner tx.vin inputs ∧
      ∀ txin ∈ tx.vin, outputExists inputs txin = true := by
  unfold fetchInputs at h
  rw [hbase] at h
  obtain ⟨inputs', w₁, hloop, h⟩ := bind_eq_ok.mp h
  obtain ⟨_, w₂, hexists, h⟩ := bind_eq_ok.mp h
  obtain ⟨rfl, -⟩ := pure_eq_ok.mp h
  refine ⟨?_, ?_⟩
  · have hempty : FetchedInputs w.node mapTestPool fBlock fMiner [] ∅ := by
      refine ⟨fun hash prev hlookup => ?_, fun hash => ?_⟩
      · exact absurd hlookup (by simp)
      · rw [Map.contains_iff]
        simp
    exact fetchLoop_ok hempty hloop
  · cases hall : tx.vin.all (outputExists inputs) with
    | true => exact List.all_eq_true.mp hall
    | false =>
      rw [hall] at hexists
      exact absurd hexists nofun

/-! ## Values -/

/-- The output an input spends. -/
def spentOutput (inputs : MapPrevTx) (txin : CTxIn) : Option CTxOut :=
  inputs[txin.prevout.hash]?.bind fun prev => prev.2.vout[txin.prevout.n]?

/-- The value of the output an input spends. -/
def spentValue (inputs : MapPrevTx) (txin : CTxIn) : Int :=
  ((spentOutput inputs txin).map CTxOut.nValue).getD 0

/-- The value of the outputs a transaction spends, without any bonus. -/
def valueIn (inputs : MapPrevTx) (tx : CTransaction) : Int := (tx.vin.map (spentValue inputs)).sum

/-- The value of the outputs a transaction creates. -/
def valueOut (tx : CTransaction) : Int := (tx.vout.map CTxOut.nValue).sum

theorem getOutputFor_eq_ok {inputs : MapPrevTx} {txin : CTxIn} {txout : CTxOut} :
    getOutputFor inputs txin = .ok txout ↔ spentOutput inputs txin = some txout := by
  unfold getOutputFor spentOutput
  cases inputs[txin.prevout.hash]? with
  | none => simp
  | some prev => cases hout : prev.2.vout[txin.prevout.n]? <;> simp [hout]

theorem spentValue_of_output {inputs : MapPrevTx} {txin : CTxIn} {txout : CTxOut}
    (h : spentOutput inputs txin = some txout) : spentValue inputs txin = txout.nValue := by
  simp [spentValue, h]

theorem sumValueIn_ok {inputs : MapPrevTx} {n v : Int} {vin : List CTxIn}
    (h : sumValueIn inputs n vin = .ok v) : v = n + (vin.map (spentValue inputs)).sum := by
  induction vin generalizing n with
  | nil =>
    obtain rfl : n = v := Except.ok.inj h
    simp
  | cons txin vin ih =>
    unfold sumValueIn at h
    obtain ⟨txout, hout, h⟩ := except_bind_eq_ok.mp h
    obtain ⟨n', hn', h⟩ := except_bind_eq_ok.mp h
    obtain ⟨-, rfl⟩ := Int64.checked_eq_ok.mp hn'
    rw [List.map_cons, List.sum_cons, spentValue_of_output (getOutputFor_eq_ok.mp hout), ih h]
    omega

theorem getValueOut_ok {tx : CTransaction} {v : Int} (h : tx.getValueOut = .ok v) :
    v = tx.valueOut := by
  unfold getValueOut at h
  unfold valueOut
  suffices hgen : ∀ (vout : List CTxOut) (n : Int), vout.foldlM (fun nValueOut txout =>
      if moneyRange txout.nValue && moneyRange (nValueOut + txout.nValue) then
        Except.ok (nValueOut + txout.nValue)
      else .error (Exit.abort "CTransaction::GetValueOut() : value out of range")) n = .ok v →
      v = n + (vout.map CTxOut.nValue).sum by
    rw [hgen tx.vout 0 h, Int.zero_add]
  intro vout
  induction vout with
  | nil =>
    intro n hn
    obtain rfl : n = v := Except.ok.inj hn
    simp
  | cons txout vout ih =>
    intro n hn
    rw [List.foldlM_cons] at hn
    obtain ⟨n', hn', hn⟩ := except_bind_eq_ok.mp hn
    split at hn'
    · obtain rfl := Except.ok.inj hn'
      rw [ih _ hn, List.map_cons, List.sum_cons]
      omega
    · exact absurd hn' nofun

end CTransaction

end NoLimitCoin
