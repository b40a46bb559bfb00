import NoLimitCoin.Lib.BreadthFirst
import NoLimitCoin.Replay
import NoLimitCoin.Wallet

/-!
# Supporting transactions

`AddSupportingTransactions` copies the unconfirmed ancestors of a wallet transaction into
`vtxPrev`, for `AcceptWalletTransaction` and `RelayWalletTransaction`.  The ancestors are met by a
breadth-first walk over the inputs, and the list of what was met is turned around at the end.

Results:
1. `supportLoop_run`: the loop is a walk of its work queue.
2. `loop_terminates`: the walk ends.
-/

namespace NoLimitCoin

open Prog NodeM BreadthFirst

/-! ## The code -/

/-- A wallet transaction with the supporting transactions that it was stored with. -/
structure SupportedTx extends CMerkleTx where
  vtxPrev : List CMerkleTx

namespace SupportedTx

/-- `COPY_DEPTH`. -/
def copyDepth : Int := 3

/-- The transactions that the inputs of `tx` spend outputs of. -/
def inputHashes (tx : CTransaction) : List Uint256 := tx.vin.map fun txin => txin.prevout.hash

/-- `ReadDiskTx`. -/
def readDiskTx (hash : Uint256) : NodeM (Option CTransaction) := do
  let node ← getNode
  match node.txdb.fresh.readTxIndex hash with
  | none => pure none
  | some txindex => readTxAt txindex.pos

/-- The variables of the loop of `AddSupportingTransactions`, without its work queue. -/
structure SupportState where
  mapWalletPrev : Map Uint256 CMerkleTx
  vtxPrev : List CMerkleTx

/-- The transactions `vtxPrev` of a wallet transaction enter `mapWalletPrev`. -/
def addPrev (env : Env) (mapWalletPrev : Map Uint256 CMerkleTx) (vtxPrev : List CMerkleTx) :
    Map Uint256 CMerkleTx :=
  vtxPrev.foldl (fun m mtx => m.insert (mtx.tx.getHash env) mtx) mapWalletPrev

/-- Where the loop takes a transaction from: the wallet, then what wallet transactions that it has
met were stored with, then the disk. -/
def findSupporting (mapWallet : Map Uint256 SupportedTx) (mapWalletPrev : Map Uint256 CMerkleTx)
    (hash : Uint256) : NodeM (Option CMerkleTx) :=
  match mapWallet[hash]? with
  | some wtx => pure (some wtx.toCMerkleTx)
  | none =>
    match mapWalletPrev[hash]? with
    | some mtx => pure (some mtx)
    | none => do
      let found ← readDiskTx hash
      pure (found.map CMerkleTx.ofTx)

/-- The turn of the loop for a hash that it has not met: the new variables, and what it puts into
the work queue. -/
def supportStep (env : Env) (mapWallet : Map Uint256 SupportedTx) (hash : Uint256)
    (s : SupportState) : NodeM (SupportState × List Uint256) := do
  let mapWalletPrev := match mapWallet[hash]? with
    | some wtx => addPrev env s.mapWalletPrev wtx.vtxPrev
    | none => s.mapWalletPrev
  match ← findSupporting mapWallet s.mapWalletPrev hash with
  | none => pure (⟨mapWalletPrev, s.vtxPrev⟩, [])
  | some mtx => do
    let (nDepth, mtx) ← mtx.setMerkleBranch env none
    pure (⟨mapWalletPrev, s.vtxPrev ++ [mtx]⟩,
      if nDepth < copyDepth then inputHashes mtx.tx else [])

/-- The loop of `AddSupportingTransactions`; `vWorkQueue` is what is left of the queue. -/
def supportLoop (env : Env) (mapWallet : Map Uint256 SupportedTx) : (fuel : Nat) →
    (setAlreadyDone vWorkQueue : List Uint256) → SupportState →
    NodeM (Option (List Uint256 × SupportState))
  | _, setAlreadyDone, [], s => pure (some (setAlreadyDone, s))
  | 0, _, _ :: _, _ => pure none
  | fuel + 1, setAlreadyDone, hash :: vWorkQueue, s =>
    if hash ∈ setAlreadyDone then supportLoop env mapWallet fuel setAlreadyDone vWorkQueue s
    else do
      let (s, pushed) ← supportStep env mapWallet hash s
      supportLoop env mapWallet fuel (setAlreadyDone ++ [hash]) (vWorkQueue ++ pushed) s

/-- `AddSupportingTransactions`: `none` where the fuel is too little. -/
def addSupportingTransactions (env : Env) (mapWallet : Map Uint256 SupportedTx) (fuel : Nat)
    (wtx : SupportedTx) : NodeM (Option SupportedTx) := do
  let (nDepth, mtx) ← wtx.toCMerkleTx.setMerkleBranch env none
  if nDepth < copyDepth then
    match ← supportLoop env mapWallet fuel [] (inputHashes wtx.tx) ⟨∅, []⟩ with
    | none => pure none
    | some (_, s) => pure (some ⟨mtx, s.vtxPrev.reverse⟩)
  else pure (some ⟨mtx, []⟩)

/-- The loop of `AcceptWalletTransaction`.  The result is which transactions it has tried, in order,
and whether the node goes on. -/
def acceptSupporting (env : Env) (fCheckInputs : Bool) :
    List CMerkleTx → NodeM (List CTransaction × Except Exit Unit)
  | [] => pure ([], .ok ())
  | mtx :: vtxPrev => do
    let node ← getNode
    let hash := mtx.tx.getHash env
    if mtx.tx.isCoinBase || mtx.tx.isCoinStake || node.mempool.mapTx.contains hash ||
        node.txdb.fresh.containsTx hash then
      acceptSupporting env fCheckInputs vtxPrev
    else
      match ← attempt (mtx.tx.acceptToMemoryPool env fCheckInputs) with
      | .error (.abort what) => pure ([mtx.tx], .error (.abort what))
      | _ => do
        let (tried, r) ← acceptSupporting env fCheckInputs vtxPrev
        pure (mtx.tx :: tried, r)

/-- `AcceptWalletTransaction`. -/
def acceptWalletTransaction (env : Env) (wtx : SupportedTx) (fCheckInputs : Bool) :
    NodeM Unit := do
  let (_, r) ← acceptSupporting env fCheckInputs wtx.vtxPrev
  fromExcept r
  wtx.tx.acceptToMemoryPool env fCheckInputs

/-- The loop of `RelayWalletTransaction`: what it relays, in order. -/
def relaySupporting (env : Env) (txdb : TxDB) (vtxPrev : List CMerkleTx) : List CTransaction :=
  (vtxPrev.map CMerkleTx.tx).filter fun tx =>
    !(tx.isCoinBase || tx.isCoinStake) && !txdb.containsTx (tx.getHash env)

/-- `RelayWalletTransaction`. -/
def relayWalletTransaction (env : Env) (txdb : TxDB) (wtx : SupportedTx) : List CTransaction :=
  relaySupporting env txdb (wtx.vtxPrev ++ [wtx.toCMerkleTx])

end SupportedTx

/-! ## What a call reads -/

/-- The transaction of a hash that the database and the block files hold. -/
def Node.diskTx (node : Node) (hash : Uint256) : Option CTransaction :=
  (node.txdb.fresh.readTxIndex hash).bind fun txindex =>
    if BlockFiles.validFile txindex.pos.nFile then
      node.files.txAt[(⟨txindex.pos.nFile, txindex.pos.nTxPos⟩ : FilePos)]?
    else none

/-- A transaction that the wallet or the disk holds. -/
inductive Offered (env : Env) (mapWallet : Map Uint256 SupportedTx) (node : Node) :
    CTransaction → Prop
  | wallet {hash : Uint256} {wtx : SupportedTx} (h : mapWallet[hash]? = some wtx) :
      Offered env mapWallet node wtx.tx
  | listed {hash : Uint256} {wtx : SupportedTx} {mtx : CMerkleTx}
      (h : mapWallet[hash]? = some wtx) (hmtx : mtx ∈ wtx.vtxPrev) :
      Offered env mapWallet node mtx.tx
  | disk {hash : Uint256} {tx : CTransaction} (h : node.diskTx hash = some tx) :
      Offered env mapWallet node tx

/-- What a call reads: a wallet, and a node that has a best block and whose disk works.
Transactions are held under their own hashes, which do not collide. -/
structure Sources (env : Env) where
  mapWallet : Map Uint256 SupportedTx
  world : World
  disk_works : world.DiskWorks
  best : ∃ pindexBest index, world.node.pindexBest = some pindexBest ∧
    world.node.index? pindexBest = some index
  wallet_hash : ∀ hash (wtx : SupportedTx), mapWallet[hash]? = some wtx → wtx.tx.getHash env = hash
  disk_hash : ∀ hash tx, world.node.diskTx hash = some tx → tx.getHash env = hash
  unique : ∀ tx tx', Offered env mapWallet world.node tx → Offered env mapWallet world.node tx' →
    tx.getHash env = tx'.getHash env → tx = tx'

/-! ## The parts of a turn -/

namespace CMerkleTx

variable {env : Env} {w : World}

theorem readBlockAt_true_run (hdisk : w.DiskWorks) (nFile nBlockPos : Nat) :
    ∃ block, readBlockAt env nFile nBlockPos true w = .ok block w := by
  rw [readBlockAt, bind_of_ok (diskOk_run hdisk), getNode_bind, Bool.true_and]
  cases BlockFiles.validFile nFile with
  | false => exact ⟨none, rfl⟩
  | true =>
    rw [if_neg (by decide)]
    cases w.node.files.blockAt[(⟨nFile, nBlockPos⟩ : FilePos)]? with
    | none => exact ⟨none, rfl⟩
    | some block =>
      dsimp only
      rw [if_pos rfl]
      split
      · exact ⟨none, rfl⟩
      · exact ⟨some block, rfl⟩

/-- A call of `SetMerkleBranch` changes nothing outside of the object, and the depth that it finds
is that of the transaction. -/
theorem setMerkleBranch_run (hdisk : w.DiskWorks)
    (hbest : ∃ pindexBest index, w.node.pindexBest = some pindexBest ∧
      w.node.index? pindexBest = some index) (tx : CTransaction) :
    ∃ nDepth, ∀ mtx : CMerkleTx, mtx.tx = tx →
      ∃ mtx', mtx.setMerkleBranch env none w = .ok (nDepth, mtx') w ∧ mtx'.tx = tx := by
  have hread : ∃ found, merkleBlock env tx none w =
      .ok (Option.map (fun block : CBlock => (block, [])) found) w := by
    rw [merkleBlock, getNode_bind]
    cases hindex : w.node.txdb.fresh.readTxIndex (tx.getHash env) with
    | none => exact ⟨none, rfl⟩
    | some txindex =>
      obtain ⟨block, hblock⟩ := @readBlockAt_true_run env w hdisk txindex.pos.nFile
        txindex.pos.nBlockPos
      exact ⟨block, bind_of_ok hblock⟩
  obtain ⟨found, hread⟩ := hread
  have hsame : ∀ (mtx : CMerkleTx) (_ : mtx.tx = tx), merkleBlock env mtx.tx none w =
      .ok (Option.map (fun block : CBlock => (block, [])) found) w :=
    fun mtx h => h ▸ hread
  cases found with
  | none =>
    refine ⟨0, fun mtx htx => ⟨mtx, ?_, htx⟩⟩
    rw [setMerkleBranch, bind_of_ok (hsame mtx htx)]
    rfl
  | some block =>
    cases hfind : block.vtx.findIdx? fun other => other = tx with
    | none =>
      refine ⟨0, fun mtx htx => ⟨{ mtx with
        hashBlock := block.getHash env, vMerkleBranch := [], nIndex := -1 }, ?_, htx⟩⟩
      rw [setMerkleBranch, bind_of_ok (hsame mtx htx)]
      simp only [Option.map_some, setBranch, htx, hfind]
      rfl
    | some i =>
      have hi := (List.findIdx?_eq_some_iff_getElem.mp hfind).1
      obtain ⟨branch, hbranch, -⟩ := CBlock.merkleBranch_verifies
        (show block.TreeStored env [] from .inl rfl) (List.getElem?_eq_getElem hi)
      have hrun : ∀ mtx : CMerkleTx, mtx.tx = tx → mtx.setBranch env block [] =
          some (true, { mtx with
            hashBlock := block.getHash env, vMerkleBranch := branch, nIndex := i }) := by
        intro mtx htx
        simp only [setBranch, htx, hfind, hbranch]
        rfl
      cases hchain : mainChainIndex w.node (block.getHash env) with
      | none =>
        refine ⟨0, fun mtx htx => ⟨{ mtx with
          hashBlock := block.getHash env, vMerkleBranch := branch, nIndex := i }, ?_, htx⟩⟩
        rw [setMerkleBranch, bind_of_ok (hsame mtx htx)]
        simp only [Option.map_some, hrun mtx htx]
        rw [getNode_bind, hchain]
        rfl
      | some index =>
        obtain ⟨pindexBest, indexBest, hnode, hindex⟩ := hbest
        have hdepth : depthOf index w =
            .ok ((indexBest.nHeight : Int) - index.nHeight + 1) w := by
          rw [depthOf, getNode_bind, hnode]
          show (deref pindexBest >>= _) w = _
          rw [bind_of_ok (show deref pindexBest w = .ok indexBest w by rw [deref, hindex])]
          rfl
        refine ⟨(indexBest.nHeight : Int) - index.nHeight + 1, fun mtx htx => ⟨{ mtx with
          hashBlock := block.getHash env, vMerkleBranch := branch, nIndex := i }, ?_, htx⟩⟩
        rw [setMerkleBranch, bind_of_ok (hsame mtx htx)]
        simp only [Option.map_some, hrun mtx htx]
        rw [getNode_bind, hchain]
        exact bind_of_ok hdepth

end CMerkleTx

namespace Sources

open SupportedTx

variable {env : Env} (src : Sources env) {hash : Uint256} {s : SupportState} {mtx : CMerkleTx}

/-- The depth of a transaction in the main chain. -/
def depth (tx : CTransaction) : Int :=
  match (CMerkleTx.ofTx tx).setMerkleBranch env none src.world with
  | .ok (nDepth, _) _ => nDepth
  | .error _ _ => 0

theorem setMerkleBranch_run (mtx : CMerkleTx) :
    ∃ mtx', mtx.setMerkleBranch env none src.world = .ok (src.depth mtx.tx, mtx') src.world ∧
      mtx'.tx = mtx.tx := by
  obtain ⟨nDepth, hrun⟩ := CMerkleTx.setMerkleBranch_run src.disk_works src.best mtx.tx
  obtain ⟨mtx₀, hdepth, -⟩ := hrun (CMerkleTx.ofTx mtx.tx) rfl
  have hsame : src.depth mtx.tx = nDepth := by rw [depth, hdepth]
  rw [hsame]
  exact hrun mtx rfl

/-- The transactions that the loop goes on to from `tx`. -/
def leadsTo (tx : CTransaction) : List Uint256 :=
  if src.depth tx < copyDepth then inputHashes tx else []

/-- What `findSupporting` finds. -/
def lookup (mapWalletPrev : Map Uint256 CMerkleTx) (hash : Uint256) : Option CMerkleTx :=
  match src.mapWallet[hash]? with
  | some wtx => some wtx.toCMerkleTx
  | none =>
    match mapWalletPrev[hash]? with
    | some mtx => some mtx
    | none => (src.world.node.diskTx hash).map CMerkleTx.ofTx

theorem readDiskTx_run (hash : Uint256) :
    readDiskTx hash src.world = .ok (src.world.node.diskTx hash) src.world := by
  rw [readDiskTx, getNode_bind, Node.diskTx]
  cases src.world.node.txdb.fresh.readTxIndex hash with
  | none => rfl
  | some txindex => exact readTxAt_run src.disk_works txindex.pos

theorem findSupporting_run (mapWalletPrev : Map Uint256 CMerkleTx) (hash : Uint256) :
    findSupporting src.mapWallet mapWalletPrev hash src.world =
      .ok (src.lookup mapWalletPrev hash) src.world := by
  rw [findSupporting, lookup]
  cases src.mapWallet[hash]? with
  | some wtx => rfl
  | none =>
    cases mapWalletPrev[hash]? with
    | some mtx => rfl
    | none => exact bind_of_ok (src.readDiskTx_run hash)

/-- `mapWalletPrev` after the turn for `hash`. -/
def nextPrev (hash : Uint256) (mapWalletPrev : Map Uint256 CMerkleTx) : Map Uint256 CMerkleTx :=
  match src.mapWallet[hash]? with
  | some wtx => addPrev env mapWalletPrev wtx.vtxPrev
  | none => mapWalletPrev

/-- A turn of the loop. -/
def visit (hash : Uint256) (s : SupportState) : SupportState × List Uint256 :=
  match supportStep env src.mapWallet hash s src.world with
  | .ok r _ => r
  | .error _ _ => (s, [])

/-- What a turn does: nothing for a hash that is not found. -/
theorem supportStep_cases (hash : Uint256) (s : SupportState) :
    supportStep env src.mapWallet hash s src.world = .ok (src.visit hash s) src.world ∧
      ((src.lookup s.mapWalletPrev hash = none ∧ src.visit hash s = (s, [])) ∨
        ∃ mtx mtx', src.lookup s.mapWalletPrev hash = some mtx ∧ mtx'.tx = mtx.tx ∧
          src.visit hash s = (⟨src.nextPrev hash s.mapWalletPrev, s.vtxPrev ++ [mtx']⟩,
            src.leadsTo mtx.tx)) := by
  have hfind := src.findSupporting_run s.mapWalletPrev hash
  cases hlookup : src.lookup s.mapWalletPrev hash with
  | none =>
    rw [hlookup] at hfind
    have hwallet : src.mapWallet[hash]? = none := by
      rw [lookup] at hlookup
      cases h : src.mapWallet[hash]? with
      | none => rfl
      | some wtx => simp [h] at hlookup
    have hstep : supportStep env src.mapWallet hash s src.world = .ok (s, []) src.world := by
      rw [supportStep, bind_of_ok hfind, hwallet]
      rfl
    have hvisit : src.visit hash s = (s, []) := by rw [visit, hstep]
    exact ⟨hvisit ▸ hstep, .inl ⟨rfl, hvisit⟩⟩
  | some mtx =>
    rw [hlookup] at hfind
    obtain ⟨mtx', hset, hsame⟩ := src.setMerkleBranch_run mtx
    have hstep : supportStep env src.mapWallet hash s src.world =
        .ok (⟨src.nextPrev hash s.mapWalletPrev, s.vtxPrev ++ [mtx']⟩, src.leadsTo mtx.tx)
          src.world := by
      rw [supportStep, bind_of_ok hfind]
      dsimp only
      rw [bind_of_ok hset, hsame]
      rfl
    have hvisit : src.visit hash s =
        (⟨src.nextPrev hash s.mapWalletPrev, s.vtxPrev ++ [mtx']⟩, src.leadsTo mtx.tx) := by
      rw [visit, hstep]
    exact ⟨hvisit ▸ hstep, .inr ⟨mtx, mtx', rfl, hsame, hvisit⟩⟩

/-- The loop is a walk of its work queue. -/
theorem supportLoop_run (fuel : Nat) (done queue : List Uint256) (s : SupportState) :
    supportLoop env src.mapWallet fuel done queue s src.world =
      .ok (worklist src.visit fuel done queue s) src.world := by
  fun_induction worklist src.visit fuel done queue s with
  | case1 => rw [supportLoop]; rfl
  | case2 => rfl
  | case3 fuel done hash queue s hdone ih => rw [supportLoop, if_pos hdone, ih]
  | case4 fuel done hash queue s hdone ih =>
    rw [supportLoop, if_neg hdone, bind_of_ok (src.supportStep_cases hash s).1]
    exact ih

theorem addSupportingTransactions_run (wtx : SupportedTx) :
    ∃ mtx : CMerkleTx, mtx.tx = wtx.tx ∧ ∀ fuel,
      wtx.addSupportingTransactions env src.mapWallet fuel src.world =
        .ok ((worklist src.visit fuel [] (src.leadsTo wtx.tx) ⟨∅, []⟩).map fun r =>
          ⟨mtx, r.2.vtxPrev.reverse⟩) src.world := by
  obtain ⟨mtx, hset, hsame⟩ := src.setMerkleBranch_run wtx.toCMerkleTx
  refine ⟨mtx, hsame, fun fuel => ?_⟩
  rw [addSupportingTransactions, bind_of_ok hset]
  by_cases hdepth : src.depth wtx.tx < copyDepth
  · have hrun := src.supportLoop_run fuel [] (inputHashes wtx.tx) ⟨∅, []⟩
    rw [leadsTo, if_pos hdepth]
    dsimp only
    rw [if_pos hdepth, bind_of_ok hrun]
    cases worklist src.visit fuel [] (inputHashes wtx.tx) ⟨∅, []⟩ with
    | none => rfl
    | some r => rfl
  · rw [leadsTo, if_neg hdepth, worklist_nil]
    dsimp only
    rw [if_neg hdepth]
    rfl

/-! ## What is found, and that the loop ends -/

theorem getElem?_addPrev {m : Map Uint256 CMerkleTx} {l : List CMerkleTx}
    (h : (addPrev env m l)[hash]? = some mtx) :
    (mtx ∈ l ∧ mtx.tx.getHash env = hash) ∨ m[hash]? = some mtx := by
  induction l using List.reverseRecOn with
  | nil => exact .inr h
  | append_singleton l last ih =>
    rw [addPrev, List.foldl_append, List.foldl_cons, List.foldl_nil, Map.getElem?_insert] at h
    split at h
    · obtain rfl := Option.some.inj h
      exact .inl ⟨by simp, ‹_›⟩
    · exact (ih h).imp_left fun hmem => ⟨List.mem_append_left _ hmem.1, hmem.2⟩

theorem exists_getElem?_addPrev {m : Map Uint256 CMerkleTx} {l : List CMerkleTx}
    (h : (∃ mtx ∈ l, mtx.tx.getHash env = hash) ∨ ∃ mtx, m[hash]? = some mtx) :
    ∃ mtx, (addPrev env m l)[hash]? = some mtx := by
  induction l using List.reverseRecOn with
  | nil =>
    rcases h with ⟨mtx, hmem, -⟩ | h
    · exact absurd hmem List.not_mem_nil
    · exact h
  | append_singleton l last ih =>
    rw [addPrev, List.foldl_append, List.foldl_cons, List.foldl_nil, Map.getElem?_insert]
    split
    · exact ⟨last, rfl⟩
    · next hne =>
      refine ih (h.imp_left fun ⟨mtx, hmem, hhash⟩ => ⟨mtx, ?_, hhash⟩)
      rcases List.mem_append.mp hmem with hmem | hmem
      · exact hmem
      · exact absurd (List.mem_singleton.mp hmem ▸ hhash) hne

theorem nextPrev_eq_some {m : Map Uint256 CMerkleTx} {g : Uint256}
    (h : (src.nextPrev g m)[hash]? = some mtx) :
    (∃ wtx, src.mapWallet[g]? = some wtx ∧ mtx ∈ wtx.vtxPrev ∧ mtx.tx.getHash env = hash) ∨
      m[hash]? = some mtx := by
  rw [nextPrev] at h
  cases hwallet : src.mapWallet[g]? with
  | none =>
    rw [hwallet] at h
    exact .inr h
  | some wtx =>
    rw [hwallet] at h
    exact (getElem?_addPrev h).imp_left fun hlist => ⟨wtx, rfl, hlist⟩

theorem exists_nextPrev {m : Map Uint256 CMerkleTx} {g : Uint256}
    (h : (∃ wtx, src.mapWallet[g]? = some wtx ∧
        ∃ mtx ∈ wtx.vtxPrev, mtx.tx.getHash env = hash) ∨ ∃ mtx, m[hash]? = some mtx) :
    ∃ mtx, (src.nextPrev g m)[hash]? = some mtx := by
  rw [nextPrev]
  cases hwallet : src.mapWallet[g]? with
  | none =>
    rcases h with ⟨wtx, h, -⟩ | h
    · exact absurd (hwallet.symm.trans h) nofun
    · exact h
  | some wtx =>
    refine exists_getElem?_addPrev (h.imp_left ?_)
    rintro ⟨wtx', h, hlist⟩
    obtain rfl := Option.some.inj (hwallet.symm.trans h)
    exact hlist

/-- `mapWalletPrev` holds what wallet transactions were stored with, under their hashes. -/
def Keyed (s : SupportState) : Prop :=
  ∀ hash mtx, s.mapWalletPrev[hash]? = some mtx → mtx.tx.getHash env = hash ∧
    ∃ (g : Uint256) (wtx : SupportedTx), src.mapWallet[g]? = some wtx ∧ mtx ∈ wtx.vtxPrev

theorem keyed_init : src.Keyed ⟨∅, []⟩ := by
  intro hash mtx h
  exact absurd h (by simp)

variable {src}

theorem lookup_hash (hs : src.Keyed s) (h : src.lookup s.mapWalletPrev hash = some mtx) :
    mtx.tx.getHash env = hash ∧ Offered env src.mapWallet src.world.node mtx.tx := by
  rw [lookup] at h
  cases hwallet : src.mapWallet[hash]? with
  | some wtx =>
    rw [hwallet] at h
    obtain rfl := Option.some.inj h
    exact ⟨src.wallet_hash hash wtx hwallet, .wallet hwallet⟩
  | none =>
    rw [hwallet] at h
    cases hprev : s.mapWalletPrev[hash]? with
    | some prev =>
      rw [hprev] at h
      obtain rfl := Option.some.inj h
      obtain ⟨hhash, g, wtx, hg, hmem⟩ := hs hash prev hprev
      exact ⟨hhash, .listed hg hmem⟩
    | none =>
      rw [hprev] at h
      obtain ⟨tx, hdisk, rfl⟩ := Option.map_eq_some_iff.mp h
      exact ⟨src.disk_hash hash tx hdisk, .disk hdisk⟩

theorem Keyed.visit (hs : src.Keyed s) (hash : Uint256) : src.Keyed (src.visit hash s).1 := by
  rcases (src.supportStep_cases hash s).2 with ⟨-, h⟩ | ⟨mtx, mtx', -, -, h⟩
  · rw [h]
    exact hs
  · rw [h]
    intro hash' found hfound
    rcases src.nextPrev_eq_some hfound with ⟨wtx, hwallet, hmem, hhash⟩ | hold
    · exact ⟨hhash, hash, wtx, hwallet, hmem⟩
    · exact hs hash' found hold

variable (src) in
/-- The hashes of the transactions that the wallet and the database hold. -/
def offeredHashes : List Uint256 :=
  (src.mapWallet.toList.flatMap fun item =>
      item.1 :: item.2.vtxPrev.map fun mtx => mtx.tx.getHash env) ++
    src.world.node.txdb.pdb.toList.filterMap fun item =>
      match item.1 with
      | .tx hash => some hash
      | _ => none

theorem mem_offeredHashes {tx : CTransaction}
    (h : Offered env src.mapWallet src.world.node tx) : tx.getHash env ∈ src.offeredHashes := by
  cases h with
  | @wallet hash wtx h =>
    refine List.mem_append_left _ (List.mem_flatMap.mpr ⟨(hash, wtx), ?_, ?_⟩)
    · exact (Map.mem_toList _ _ _).mpr h
    · rw [src.wallet_hash hash wtx h]
      exact List.mem_cons_self
  | @listed hash wtx mtx h hmtx =>
    refine List.mem_append_left _ (List.mem_flatMap.mpr ⟨(hash, wtx), ?_, ?_⟩)
    · exact (Map.mem_toList _ _ _).mpr h
    · exact List.mem_cons_of_mem _ (List.mem_map_of_mem hmtx)
  | @disk hash tx h =>
    rw [src.disk_hash hash tx h]
    obtain ⟨txindex, hread, -⟩ := Option.bind_eq_some_iff.mp h
    obtain ⟨value, hvalue, -⟩ := Option.bind_eq_some_iff.mp hread
    refine List.mem_append_right _ (List.mem_filterMap.mpr ⟨(.tx hash, value), ?_, rfl⟩)
    exact (Map.mem_toList _ _ _).mpr hvalue

/-- The loop ends: what leads on has been offered, and no hash is met twice. -/
theorem loop_terminates (hs : src.Keyed s) (done queue : List Uint256) :
    ∃ fuel r, ∀ fuel' ≥ fuel, worklist src.visit fuel' done queue s = some r := by
  have hweight : ∀ hash, ∃ n, (∀ tx, Offered env src.mapWallet src.world.node tx →
      tx.getHash env = hash → (inputHashes tx).length ≤ n) ∧
        (hash ∉ src.offeredHashes.toFinset → n = 0) := by
    intro hash
    by_cases hoffered : ∃ tx, Offered env src.mapWallet src.world.node tx ∧
        tx.getHash env = hash
    · obtain ⟨tx, htx, rfl⟩ := hoffered
      refine ⟨(inputHashes tx).length, fun tx' htx' hsame => ?_, fun hmem => ?_⟩
      · rw [src.unique tx' tx htx' htx hsame]
      · exact absurd (List.mem_toFinset.mpr (mem_offeredHashes htx)) hmem
    · exact ⟨0, fun tx htx hhash => absurd ⟨tx, htx, hhash⟩ hoffered, fun _ => rfl⟩
  choose weight hbound hzero using hweight
  have hvisit : ∀ hash s, src.Keyed s → (src.visit hash s).2.length ≤ weight hash := by
    intro hash s hs
    rcases (src.supportStep_cases hash s).2 with ⟨-, h⟩ | ⟨mtx, mtx', hlookup, -, h⟩
    · rw [h]
      exact Nat.zero_le _
    · rw [h]
      obtain ⟨hhash, hoffered⟩ := lookup_hash hs hlookup
      have hle := hbound hash mtx.tx hoffered hhash
      dsimp only [leadsTo]
      split
      · exact hle
      · exact Nat.zero_le _
  obtain ⟨r, hr⟩ := worklist_terminates (fun hash s hs => hs.visit hash) hvisit hzero hs
    (le_refl (queue.length + ∑ hash ∈ src.offeredHashes.toFinset \ done.toFinset, weight hash))
  exact ⟨_, r, hr⟩

end Sources

end NoLimitCoin
