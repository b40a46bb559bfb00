import NoLimitCoin.OrphanTxRuns

/-!
# What a tx message tells the wallets and the network

The `tx` branch of `ProcessMessage` hands every transaction that it puts into the memory pool to
`SyncWithWallets` and to `RelayTransaction`.  Here the branch keeps a record of these calls.

Results:
1. `txMessage_forget`: without the record it is `processTxMessage`.
2. `txMessage_ends`: the work queue comes to an end; the branch is left early only where
   `AcceptToMemoryPool` throws.
3. `txMessage_told_iff`: every transaction that is accepted reaches the wallets exactly when no
   orphan is accepted.
-/

namespace NoLimitCoin

open Prog NodeM

/-! ## The branch -/

/-- The calls of `SyncWithWallets` and of `RelayTransaction`, in order. -/
structure TxCalls where
  synced : List CTransaction
  relayed : List (CTransaction × Uint256)

structure TxWork extends OrphanWork, TxCalls

namespace TxWork

/-- An orphan has been accepted: the wallets are handed `tx`, the transaction of the message. -/
def accepted (tx : CTransaction) (work : TxWork) (orphanTx : CTransaction)
    (orphanTxHash : Uint256) : TxWork :=
  { work with
    synced := work.synced ++ [tx]
    relayed := work.relayed ++ [(orphanTx, orphanTxHash)]
    vWorkQueue := work.vWorkQueue ++ [orphanTxHash]
    vEraseQueue := work.vEraseQueue ++ [orphanTxHash] }

/-- Try an orphan again. -/
def tryOrphan (env : Env) (tx : CTransaction) (work : TxWork) (orphanTxHash : Uint256) :
    NodeM TxWork := do
  let (orphanTx, mapOrphanTransactions) :=
    Map.subscript work.orphans.mapOrphanTransactions orphanTxHash CTransaction.default
  let work := { work with orphans := { work.orphans with mapOrphanTransactions } }
  match ← attempt (orphanTx.acceptToMemoryPool env true) with
  | .ok () => pure (work.accepted tx orphanTx orphanTxHash)
  | .error (.abort what) => throw (.abort what)
  | .error e =>
    if e = missingInputs then pure work
    else pure { work with vEraseQueue := work.vEraseQueue ++ [orphanTxHash] }

/-- The orphans that depend on the next accepted transaction. -/
def tryDependants (env : Env) (tx : CTransaction) (work : TxWork) (hashPrev : Uint256)
    (rest : List Uint256) : NodeM TxWork :=
  let (hashes, mapOrphanTransactionsByPrev) :=
    Map.subscript work.orphans.mapOrphanTransactionsByPrev hashPrev ∅
  (hashes.sort (· ≤ ·)).foldlM (tryOrphan env tx) { work with
    orphans := { work.orphans with mapOrphanTransactionsByPrev }
    vWorkQueue := rest }

/-- The loop over `vWorkQueue`. -/
def processQueue (env : Env) (tx : CTransaction) : (fuel : Nat) → TxWork → NodeM TxWork
  | 0, work => match work.vWorkQueue with
    | [] => pure work
    | _ :: _ => throw (.abort "vWorkQueue")
  | fuel + 1, work => match work.vWorkQueue with
    | [] => pure work
    | hashPrev :: rest => do
      let work ← work.tryDependants env tx hashPrev rest
      processQueue env tx fuel work

/-- The incoming transaction has been accepted. -/
def start (env : Env) (orphans : OrphanTxs) (tx : CTransaction) : TxWork :=
  ⟨⟨orphans, [tx.getHash env], [tx.getHash env]⟩, ⟨[tx], [(tx, tx.getHash env)]⟩⟩

end TxWork

/-- The `tx` branch of `ProcessMessage`. -/
def txMessage (env : Env) (random : Nat → Uint256) (orphans : OrphanTxs) (tx : CTransaction) :
    NodeM (OrphanTxs × TxCalls) := do
  match ← attempt (tx.acceptToMemoryPool env true) with
  | .ok () => do
    let work ← TxWork.processQueue env tx (orphans.mapOrphanTransactions.size + 1)
      (.start env orphans tx)
    pure (work.vEraseQueue.foldl OrphanTxs.eraseOrphanTx work.orphans, work.toTxCalls)
  | .error (.abort what) => throw (.abort what)
  | .error e =>
    if e = missingInputs then
      pure (((orphans.addOrphanTx env tx).2.limitOrphanTxSize maxOrphanTransactions random).2,
        ⟨[], []⟩)
    else pure (orphans, ⟨[], []⟩)

/-! ## Without the record -/

namespace TxWork

variable {env : Env} {tx : CTransaction}

theorem tryOrphan_forget (work : TxWork) (hash : Uint256) :
    toOrphanWork <$> work.tryOrphan env tx hash = work.toOrphanWork.tryOrphan env hash := by
  unfold tryOrphan OrphanWork.tryOrphan
  dsimp only
  rw [map_bind]
  refine bind_congr fun r => ?_
  match r with
  | .ok () => rfl
  | .error (.abort what) => rfl
  | .error (.reject nDoS text) =>
    dsimp only
    split
    · rfl
    · rfl

theorem foldlM_tryOrphan_forget (work : TxWork) (hashes : List Uint256) :
    toOrphanWork <$> hashes.foldlM (tryOrphan env tx) work =
      hashes.foldlM (OrphanWork.tryOrphan env) work.toOrphanWork := by
  induction hashes generalizing work with
  | nil => rfl
  | cons hash hashes ih =>
    rw [List.foldlM_cons, List.foldlM_cons, map_bind, ← @tryOrphan_forget env tx, bind_map_left]
    exact bind_congr fun work' => ih work'

theorem tryDependants_forget (work : TxWork) (hashPrev : Uint256) (rest : List Uint256) :
    toOrphanWork <$> work.tryDependants env tx hashPrev rest =
      work.toOrphanWork.tryDependants env hashPrev rest :=
  foldlM_tryOrphan_forget _ _

theorem processQueue_forget (fuel : Nat) (work : TxWork) :
    toOrphanWork <$> processQueue env tx fuel work =
      OrphanWork.processQueue env fuel work.toOrphanWork := by
  induction fuel generalizing work with
  | zero =>
    unfold processQueue OrphanWork.processQueue
    cases work.vWorkQueue <;> rfl
  | succ fuel ih =>
    unfold processQueue OrphanWork.processQueue
    cases work.vWorkQueue with
    | nil => rfl
    | cons hashPrev rest =>
      dsimp only
      rw [map_bind, ← @tryDependants_forget env tx, bind_map_left]
      exact bind_congr fun work' => ih work'

end TxWork

/-- Without the record the branch is the one that the orphan index is about. -/
theorem txMessage_forget (env : Env) (random : Nat → Uint256) (orphans : OrphanTxs)
    (tx : CTransaction) :
    Prod.fst <$> txMessage env random orphans tx = processTxMessage env random orphans tx := by
  unfold txMessage processTxMessage
  rw [map_bind]
  refine bind_congr fun r => ?_
  match r with
  | .ok () =>
    dsimp only
    have hforget := @TxWork.processQueue_forget env tx (orphans.mapOrphanTransactions.size + 1)
      (.start env orphans tx)
    rw [map_bind]
    show _ = OrphanWork.processQueue env _ (TxWork.start env orphans tx).toOrphanWork >>= _
    rw [← hforget, bind_map_left]
    rfl
  | .error (.abort what) => rfl
  | .error (.reject nDoS text) =>
    dsimp only
    split
    · rfl
    · rfl

/-! ## The tries -/

/-- A call of `AcceptToMemoryPool` for a stored orphan, and its outcome. -/
structure Try where
  hash : Uint256
  tx : CTransaction
  result : Except Exit Unit

namespace Try

def isAccepted (t : Try) : Bool :=
  match t.result with
  | .ok () => true
  | .error _ => false

end Try

/-- The calls, one after the other from one world to another. -/
inductive Tries (env : Env) (w : World) : List Try → World → Prop
  | nil : Tries env w [] w
  | snoc {tries : List Try} {w₁ w' : World} {t : Try} (h : Tries env w tries w₁)
      (hrun : attempt (t.tx.acceptToMemoryPool env true) w₁ = .ok t.result w') :
      Tries env w (tries ++ [t]) w'

section tries

variable (env : Env) (orphans : OrphanTxs) (tx : CTransaction)

/-- The transactions in the pool after the tries: the incoming one, and the orphans that were
accepted. -/
def entered (tries : List Try) : List (CTransaction × Uint256) :=
  (tx, tx.getHash env) :: (tries.filter Try.isAccepted).map fun t => (t.tx, t.hash)

/-- An orphan has been tried after a transaction had entered the pool. -/
def TriedAfter (tries : List Try) (p h : Uint256) : Prop :=
  ∃ front back, tries = front ++ back ∧ p ∈ (entered env tx front).map Prod.snd ∧
    ∃ t ∈ back, t.hash = h

variable {env orphans tx} {tries : List Try} {p h : Uint256}

theorem entered_append (t : Try) : entered env tx (tries ++ [t]) =
    entered env tx tries ++ if t.isAccepted then [(t.tx, t.hash)] else [] := by
  unfold entered
  cases ht : t.isAccepted <;> simp [ht]

theorem TriedAfter.append (htried : TriedAfter env tx tries p h) (more : List Try) :
    TriedAfter env tx (tries ++ more) p h := by
  obtain ⟨front, back, rfl, hp, t, ht, hhash⟩ := htried
  exact ⟨front, back ++ more, List.append_assoc _ _ _, hp, t, List.mem_append_left _ ht, hhash⟩

theorem TriedAfter.last (t : Try) (hp : p ∈ (entered env tx tries).map Prod.snd) :
    TriedAfter env tx (tries ++ [t]) p t.hash :=
  ⟨tries, [t], rfl, hp, t, List.mem_singleton_self t, rfl⟩

/-- What the branch has recorded is what the tries have done. -/
structure Recorded (env : Env) (orphans : OrphanTxs) (tx : CTransaction) (w₁ : World)
    (done : List Uint256) (work : TxWork) (w : World) (tries : List Try) : Prop where
  replay : Tries env w₁ tries w
  stored : work.orphans.mapOrphanTransactions = orphans.mapOrphanTransactions
  relayed : work.relayed = entered env tx tries
  synced : work.synced = List.replicate work.relayed.length tx
  erase : ∀ a, a ∈ work.vEraseQueue ↔ a = tx.getHash env ∨
    ∃ t ∈ tries, t.hash = a ∧ t.result ≠ .error missingInputs
  queue : (entered env tx tries).map Prod.snd = done ++ work.vWorkQueue
  justified : ∀ t ∈ tries, orphans.mapOrphanTransactions[t.hash]? = some t.tx ∧
    ∃ p, orphans.Spends t.hash p ∧ TriedAfter env tx tries p t.hash
  once : ((entered env tx tries).map Prod.snd).Nodup
  pooled : ∀ item ∈ entered env tx tries, w.node.mempool.mapTx[item.2]? = some item.1

end tries

namespace TxWork

variable {env : Env} {orphans : OrphanTxs} {tx : CTransaction} {work work' : TxWork}
  {w₁ w w' : World} {done : List Uint256} {tries : List Try}

/-- What a try leaves behind. -/
def recorded (tx : CTransaction) (work : TxWork) (t : Try) : TxWork :=
  match t.result with
  | .ok () => work.accepted tx t.tx t.hash
  | .error e =>
    if e = missingInputs then work
    else { work with vEraseQueue := work.vEraseQueue ++ [t.hash] }

theorem tryOrphan_ok {hash : Uint256} {orphanTx : CTransaction}
    (hstored : work.orphans.mapOrphanTransactions[hash]? = some orphanTx)
    (h : work.tryOrphan env tx hash w = .ok work' w') :
    ∃ r, attempt (orphanTx.acceptToMemoryPool env true) w = .ok r w' ∧
      work' = work.recorded tx ⟨hash, orphanTx, r⟩ := by
  unfold tryOrphan at h
  rw [OrphanTxs.subscript_of_some hstored] at h
  obtain ⟨r, w₂, hattempt, h⟩ := bind_eq_ok.mp h
  cases r with
  | ok u =>
    obtain ⟨rfl, rfl⟩ := pure_eq_ok.mp h
    exact ⟨.ok (), hattempt, rfl⟩
  | error e =>
    cases e with
    | abort what => exact absurd h error_ne_ok
    | reject nDoS text =>
      dsimp only at h
      split at h
      · next hmissing =>
        obtain ⟨rfl, rfl⟩ := pure_eq_ok.mp h
        exact ⟨.error (.reject nDoS text), hattempt, by simp only [recorded, if_pos hmissing]⟩
      · next hmissing =>
        obtain ⟨rfl, rfl⟩ := pure_eq_ok.mp h
        exact ⟨.error (.reject nDoS text), hattempt, by simp only [recorded, if_neg hmissing]⟩

/-- `AcceptToMemoryPool` leaves the transactions of the pool where they are, and adds the one it
accepts. -/
theorem attempt_pooled {t : Try}
    (hrun : attempt (t.tx.acceptToMemoryPool env true) w = .ok t.result w') :
    (t.isAccepted = true → w.node.mempool.mapTx[t.tx.getHash env]? = none ∧
      w'.node.mempool.mapTx[t.tx.getHash env]? = some t.tx) ∧
      ∀ (a : Uint256) (b : CTransaction), w.node.mempool.mapTx[a]? = some b →
        w'.node.mempool.mapTx[a]? = some b := by
  rcases attempt_eq_ok.mp hrun with ⟨u, hresult, haccept⟩ | ⟨e, hresult, hfail⟩
  · obtain ⟨hno, hpool⟩ := CTxMemPool.acceptToMemoryPool_ok haccept
    rw [hpool]
    show (_ → _ ∧ (w.node.mempool.mapTx.insert _ t.tx)[_]? = _) ∧
      ∀ (a : Uint256) b, _ → (w.node.mempool.mapTx.insert _ t.tx)[a]? = _
    refine ⟨fun _ => ⟨hno.fresh, by rw [Map.getElem?_insert, if_pos rfl]⟩, fun a b hab => ?_⟩
    have hne : t.tx.getHash env ≠ a := by
      rintro rfl
      rw [hno.fresh] at hab
      cases hab
    rw [Map.getElem?_insert_of_ne _ _ hne, hab]
  · have hnode := (CTxMemPool.acceptToMemoryPool_failsClean env t.tx true w e w' hfail).node
    refine ⟨fun haccepted => ?_, fun a b hab => by rw [hnode, hab]⟩
    rw [Try.isAccepted, hresult] at haccepted
    cases haccepted

/-- One try more. -/
theorem record_try {hash hashPrev : Uint256} {orphanTx : CTransaction} {r : Except Exit Unit}
    (hrec : Recorded env orphans tx w₁ done work w tries) (hkeyed : orphans.Matched env)
    (hstored : orphans.mapOrphanTransactions[hash]? = some orphanTx)
    (hprev : hashPrev ∈ (entered env tx tries).map Prod.snd)
    (hspends : orphans.Spends hash hashPrev)
    (hrun : attempt (orphanTx.acceptToMemoryPool env true) w = .ok r w') :
    Recorded env orphans tx w₁ done (work.recorded tx ⟨hash, orphanTx, r⟩) w'
      (tries ++ [⟨hash, orphanTx, r⟩]) := by
  obtain ⟨hfresh, hkeeps⟩ := @attempt_pooled env w w' ⟨hash, orphanTx, r⟩ hrun
  have hkey : orphanTx.getHash env = hash := hkeyed.keyed hash orphanTx hstored
  have hjustified : ∀ t ∈ tries ++ [⟨hash, orphanTx, r⟩],
      orphans.mapOrphanTransactions[t.hash]? = some t.tx ∧ ∃ p, orphans.Spends t.hash p ∧
        TriedAfter env tx (tries ++ [⟨hash, orphanTx, r⟩]) p t.hash := by
    intro t ht
    rcases List.mem_append.mp ht with hold | hlast
    · obtain ⟨hmem, p, hp, htried⟩ := hrec.justified t hold
      exact ⟨hmem, p, hp, htried.append _⟩
    · obtain rfl := List.mem_singleton.mp hlast
      exact ⟨hstored, hashPrev, hspends, TriedAfter.last _ hprev⟩
  have herase : ∀ e : Prop, (e ↔ r ≠ .error missingInputs) → ∀ a,
      (a ∈ work.vEraseQueue ∨ e ∧ a = hash) ↔ a = tx.getHash env ∨
        ∃ t ∈ tries ++ [⟨hash, orphanTx, r⟩], t.hash = a ∧ t.result ≠ .error missingInputs := by
    intro e he a
    rw [hrec.erase, he]
    simp only [List.mem_append, List.mem_singleton, or_and_right, exists_or, exists_eq_left,
      or_assoc]
    exact or_congr_right (or_congr_right ⟨fun hlast => ⟨hlast.2.symm, hlast.1⟩,
      fun hlast => ⟨hlast.2, hlast.1.symm⟩⟩)
  have hreplay : Tries env w₁ (tries ++ [⟨hash, orphanTx, r⟩]) w' := hrec.replay.snoc hrun
  cases r with
  | ok u =>
    obtain ⟨habsent, hnew⟩ := hfresh rfl
    have hentered : entered env tx (tries ++ [⟨hash, orphanTx, .ok u⟩]) =
        entered env tx tries ++ [(orphanTx, hash)] := entered_append _
    refine ⟨hreplay, hrec.stored, ?_, ?_, fun a => ?_, ?_, hjustified, ?_, ?_⟩
    · rw [hentered, ← hrec.relayed]
      rfl
    · show work.synced ++ [tx] = List.replicate (work.relayed ++ [_]).length tx
      rw [hrec.synced, List.length_append, List.length_singleton, List.replicate_succ']
    · rw [← herase True ⟨fun _ => by simp, fun _ => trivial⟩ a]
      show a ∈ work.vEraseQueue ++ [hash] ↔ _
      simp
    · rw [hentered, List.map_append, hrec.queue]
      exact List.append_assoc _ _ _
    · rw [hentered, List.map_append, List.nodup_append']
      refine ⟨hrec.once, List.nodup_singleton _, ?_⟩
      rintro a ha hlast
      obtain rfl := List.mem_singleton.mp hlast
      obtain ⟨item, hitem, rfl⟩ := List.mem_map.mp ha
      have hin := hrec.pooled item hitem
      rw [show item.2 = orphanTx.getHash env from hkey.symm, habsent] at hin
      cases hin
    · intro item hitem
      rw [hentered] at hitem
      rcases List.mem_append.mp hitem with hold | hlast
      · exact hkeeps _ _ (hrec.pooled item hold)
      · obtain rfl := List.mem_singleton.mp hlast
        rw [← hkey]
        exact hnew
  | error e =>
    have hentered : entered env tx (tries ++ [⟨hash, orphanTx, .error e⟩]) =
        entered env tx tries := (entered_append _).trans (List.append_nil _)
    have hpooled : ∀ item ∈ entered env tx (tries ++ [⟨hash, orphanTx, .error e⟩]),
        w'.node.mempool.mapTx[item.2]? = some item.1 :=
      fun item hitem => hkeeps _ _ (hrec.pooled item (hentered ▸ hitem))
    unfold recorded
    dsimp only
    split
    · next hmissing =>
      refine ⟨hreplay, hrec.stored, hentered ▸ hrec.relayed, hrec.synced, fun a => ?_,
        hentered ▸ hrec.queue, hjustified, hentered ▸ hrec.once, hpooled⟩
      rw [← herase False ⟨False.elim, fun hne => hne (by rw [hmissing])⟩ a]
      simp
    · next hmissing =>
      refine ⟨hreplay, hrec.stored, hentered ▸ hrec.relayed, hrec.synced, fun a => ?_,
        hentered ▸ hrec.queue, hjustified, hentered ▸ hrec.once, hpooled⟩
      rw [← herase True ⟨fun _ heq => hmissing (Except.error.inj heq), fun _ => trivial⟩ a]
      show a ∈ work.vEraseQueue ++ [hash] ↔ _
      simp

/-! ## The work queue -/

/-- The orphans of a list are all refused when they are tried one after the other. -/
def RefusedAll (env : Env) (orphans : OrphanTxs) : List Uint256 → World → Prop
  | [], _ => True
  | hash :: hashes, w => ∀ orphanTx r w', orphans.mapOrphanTransactions[hash]? = some orphanTx →
    attempt (orphanTx.acceptToMemoryPool env true) w = .ok r w' →
      r ≠ .ok () ∧ RefusedAll env orphans hashes w'

theorem isAccepted_eq_false {t : Try} : t.isAccepted = false ↔ t.result ≠ .ok () := by
  unfold Try.isAccepted
  split
  · next h => simp [h]
  · next h => simp [h]

/-- The inner loop: each orphan of the list is tried, in order. -/
theorem record_tries {hashes : List Uint256} {hashPrev : Uint256}
    (hrec : Recorded env orphans tx w₁ done work w tries) (hkeyed : orphans.Matched env)
    (hprev : hashPrev ∈ (entered env tx tries).map Prod.snd)
    (hspends : ∀ hash ∈ hashes, orphans.Spends hash hashPrev)
    (hrun : hashes.foldlM (tryOrphan env tx) work w = .ok work' w') :
    ∃ more, Recorded env orphans tx w₁ done work' w' (tries ++ more) ∧
      (∀ hash ∈ hashes, TriedAfter env tx (tries ++ more) hashPrev hash) ∧
      ((∀ t ∈ more, t.isAccepted = false) ↔ RefusedAll env orphans hashes w) := by
  induction hashes generalizing work w tries with
  | nil =>
    obtain ⟨rfl, rfl⟩ := pure_eq_ok.mp hrun
    exact ⟨[], by rwa [List.append_nil], by simp, by simp [RefusedAll]⟩
  | cons hash hashes ih =>
    rw [List.foldlM_cons] at hrun
    obtain ⟨work₁, w₂, hone, hrest⟩ := bind_eq_ok.mp hrun
    obtain ⟨orphanTx, hstored, hspent⟩ := hspends hash List.mem_cons_self
    obtain ⟨r, hattempt, rfl⟩ := tryOrphan_ok (hrec.stored ▸ hstored) hone
    have hrec₁ := record_try hrec hkeyed hstored hprev ⟨orphanTx, hstored, hspent⟩ hattempt
    have hprev₁ : hashPrev ∈ (entered env tx (tries ++ [⟨hash, orphanTx, r⟩])).map Prod.snd := by
      rw [entered_append, List.map_append]
      exact List.mem_append_left _ hprev
    obtain ⟨more, hrec', hafter, hrefused⟩ :=
      ih hrec₁ hprev₁ (fun a ha => hspends a (List.mem_cons_of_mem _ ha)) hrest
    rw [List.append_assoc] at hrec' hafter
    refine ⟨⟨hash, orphanTx, r⟩ :: more, hrec', fun a ha => ?_, ?_⟩
    · rcases List.mem_cons.mp ha with rfl | ha
      · have hlast := (TriedAfter.last ⟨a, orphanTx, r⟩ hprev).append more
        rwa [List.append_assoc] at hlast
      · exact hafter a ha
    · rw [List.forall_mem_cons, hrefused, isAccepted_eq_false]
      constructor
      · rintro ⟨hne, hall⟩ orphanTx' r' w₃ hstored' hattempt'
        obtain rfl := Option.some.inj (hstored.symm.trans hstored')
        obtain ⟨hr, hw⟩ := EStateM.Result.ok.inj (hattempt.symm.trans hattempt')
        exact ⟨hr ▸ hne, hw ▸ hall⟩
      · intro hall
        exact hall orphanTx r w₂ hstored hattempt

/-- The orphans that depend on a transaction, in the order they are tried. -/
def dependants (orphans : OrphanTxs) (hashPrev : Uint256) : List Uint256 :=
  (OrphanTxs.hashesOf orphans.mapOrphanTransactionsByPrev hashPrev).sort (· ≤ ·)

theorem mem_dependants (hmatched : orphans.Matched env) {hashPrev a : Uint256} :
    a ∈ dependants orphans hashPrev ↔ orphans.Spends a hashPrev := by
  rw [dependants, Finset.mem_sort, hmatched.hashes]

theorem spends_congr {orphans' : OrphanTxs}
    (h : orphans'.mapOrphanTransactions = orphans.mapOrphanTransactions) (a p : Uint256) :
    orphans'.Spends a p ↔ orphans.Spends a p := by
  unfold OrphanTxs.Spends
  rw [h]

/-- Every orphan that depends on a transaction of the list has been tried after it. -/
def TriedAll (env : Env) (orphans : OrphanTxs) (tx : CTransaction) (tries : List Try)
    (done : List Uint256) : Prop :=
  ∀ p ∈ done, ∀ a, orphans.Spends a p → TriedAfter env tx tries p a

/-- One round of the outer loop. -/
theorem record_round {hashPrev : Uint256} {rest : List Uint256}
    (hrec : Recorded env orphans tx w₁ done work w tries) (hkeyed : orphans.Matched env)
    (hmatched : work.orphans.Matched env) (hqueue : work.vWorkQueue = hashPrev :: rest)
    (htried : TriedAll env orphans tx tries done)
    (hrun : work.tryDependants env tx hashPrev rest w = .ok work' w') :
    ∃ more, Recorded env orphans tx w₁ (done ++ [hashPrev]) work' w' (tries ++ more) ∧
      TriedAll env orphans tx (tries ++ more) (done ++ [hashPrev]) ∧
      ((∀ t ∈ more, t.isAccepted = false) ↔
        RefusedAll env orphans (dependants work.orphans hashPrev) w) := by
  have hloop : (TxWork.dependants work.orphans hashPrev).foldlM (tryOrphan env tx)
      { work with orphans := OrphanWork.looked work.orphans hashPrev, vWorkQueue := rest } w =
        .ok work' w' := by
    rw [TxWork.dependants, ← OrphanTxs.subscript_byPrev]
    exact hrun
  have hqueued : (entered env tx tries).map Prod.snd = (done ++ [hashPrev]) ++ rest := by
    rw [hrec.queue, hqueue, List.append_assoc]
    rfl
  have hprev : hashPrev ∈ (entered env tx tries).map Prod.snd := by
    rw [hqueued]
    simp
  have hspends : ∀ a, a ∈ TxWork.dependants work.orphans hashPrev ↔ orphans.Spends a hashPrev :=
    fun a => (mem_dependants hmatched).trans (spends_congr hrec.stored a hashPrev)
  have hpopped : Recorded env orphans tx w₁ (done ++ [hashPrev])
      { work with orphans := OrphanWork.looked work.orphans hashPrev, vWorkQueue := rest } w tries :=
    ⟨hrec.replay, hrec.stored, hrec.relayed, hrec.synced, hrec.erase, hqueued, hrec.justified,
      hrec.once, hrec.pooled⟩
  obtain ⟨more, hrec', hafter, hrefused⟩ :=
    record_tries hpopped hkeyed hprev (fun a ha => (hspends a).mp ha) hloop
  refine ⟨more, hrec', fun p hp a ha => ?_, hrefused⟩
  rcases List.mem_append.mp hp with hold | hlast
  · exact (htried p hold a ha).append more
  · obtain rfl := List.mem_singleton.mp hlast
    exact hafter a ((hspends a).mpr ha)

theorem processQueue_nil (fuel : Nat) (h : work.vWorkQueue = []) :
    processQueue env tx fuel work w = .ok work w := by
  cases fuel with
  | zero => rw [processQueue, h]; rfl
  | succ fuel => rw [processQueue, h]; rfl

theorem processQueue_cons {fuel : Nat} {hashPrev : Uint256} {rest : List Uint256}
    (h : work.vWorkQueue = hashPrev :: rest) : processQueue env tx (fuel + 1) work w =
      (work.tryDependants env tx hashPrev rest >>= processQueue env tx fuel) w := by
  rw [processQueue, h]

/-- A round leaves the orphans of the index alone, and less to do. -/
theorem tryDependants_todo (hmatched : work.orphans.Matched env) {hashPrev : Uint256}
    {rest : List Uint256} (hqueue : work.vWorkQueue = hashPrev :: rest)
    (h : work.tryDependants env tx hashPrev rest w = .ok work' w') :
    work'.orphans.Matched env ∧ work'.todo w' + 1 ≤ work.todo w := by
  have hforget : work.toOrphanWork.tryDependants env hashPrev rest w =
      .ok work'.toOrphanWork w' := by
    rw [← @tryDependants_forget env tx, map_eq_pure_bind]
    exact bind_eq_ok.mpr ⟨work', w', h, rfl⟩
  obtain ⟨horphans, htodo⟩ := OrphanWork.tryDependants_ok hmatched hqueue hforget
  refine ⟨?_, htodo⟩
  rw [horphans]
  exact OrphanWork.looked_matched hmatched hashPrev

/-- The whole loop: at its end every transaction that has entered the pool has had the orphans
that depend on it tried. -/
theorem record_queue {fuel : Nat} (hrec : Recorded env orphans tx w₁ done work w tries)
    (hkeyed : orphans.Matched env) (hmatched : work.orphans.Matched env)
    (htried : TriedAll env orphans tx tries done) (hfuel : work.todo w ≤ fuel)
    (hrun : processQueue env tx fuel work w = .ok work' w') :
    ∃ more done', Recorded env orphans tx w₁ done' work' w' (tries ++ more) ∧
      TriedAll env orphans tx (tries ++ more) done' ∧ work'.vWorkQueue = [] := by
  induction fuel generalizing done work w tries with
  | zero =>
    have hnil : work.vWorkQueue = [] :=
      List.length_eq_zero_iff.mp (by unfold OrphanWork.todo at hfuel; omega)
    rw [processQueue_nil _ hnil] at hrun
    obtain ⟨rfl, rfl⟩ := EStateM.Result.ok.inj hrun
    exact ⟨[], done, by rwa [List.append_nil], by rwa [List.append_nil], hnil⟩
  | succ fuel ih =>
    cases hqueue : work.vWorkQueue with
    | nil =>
      rw [processQueue_nil _ hqueue] at hrun
      obtain ⟨rfl, rfl⟩ := EStateM.Result.ok.inj hrun
      exact ⟨[], done, by rwa [List.append_nil], by rwa [List.append_nil], hqueue⟩
    | cons hashPrev rest =>
      rw [processQueue_cons hqueue] at hrun
      obtain ⟨work₁, w₂, hround, hrest⟩ := bind_eq_ok.mp hrun
      obtain ⟨hmatched₁, htodo⟩ := tryDependants_todo hmatched hqueue hround
      obtain ⟨more₁, hrec₁, htried₁, -⟩ :=
        record_round hrec hkeyed hmatched hqueue htried hround
      obtain ⟨more₂, done', hrec', htried', hend⟩ :=
        ih hrec₁ hmatched₁ htried₁ (by omega) hrest
      rw [List.append_assoc] at hrec' htried'
      exact ⟨more₁ ++ more₂, done', hrec', htried', hend⟩

/-! ## Ends -/

theorem tryOrphan_error {hash : Uint256} {e : Exit} (hstored : ∃ orphanTx,
    work.orphans.mapOrphanTransactions[hash]? = some orphanTx)
    (h : work.tryOrphan env tx hash w = .error e w') :
    ∃ orphanTx w₂, CTransaction.acceptToMemoryPool env orphanTx true w₂ = .error e w' := by
  obtain ⟨orphanTx, hstored⟩ := hstored
  unfold tryOrphan at h
  rw [OrphanTxs.subscript_of_some hstored] at h
  rcases bind_eq_error.mp h with hattempt | ⟨r, w₂, hattempt, h⟩
  · unfold attempt at hattempt
    split at hattempt <;> cases hattempt
  · rcases attempt_eq_ok.mp hattempt with ⟨u, rfl, -⟩ | ⟨e', rfl, hfail⟩
    · cases h
    · cases e' with
      | abort what =>
        cases h
        exact ⟨orphanTx, w, hfail⟩
      | reject nDoS text =>
        dsimp only at h
        split at h <;> cases h

theorem recorded_orphans (work : TxWork) (t : Try) : (work.recorded tx t).orphans = work.orphans := by
  unfold recorded
  split
  · rfl
  · split <;> rfl

theorem foldlM_tryOrphan_error {hashes : List Uint256} {e : Exit}
    (hstored : ∀ hash ∈ hashes, ∃ orphanTx,
      work.orphans.mapOrphanTransactions[hash]? = some orphanTx)
    (h : hashes.foldlM (tryOrphan env tx) work w = .error e w') :
    ∃ orphanTx w₂, CTransaction.acceptToMemoryPool env orphanTx true w₂ = .error e w' := by
  induction hashes generalizing work w with
  | nil => cases h
  | cons hash hashes ih =>
    rw [List.foldlM_cons] at h
    rcases bind_eq_error.mp h with hone | ⟨work₁, w₂, hone, hrest⟩
    · exact tryOrphan_error (hstored hash List.mem_cons_self) hone
    · obtain ⟨orphanTx, htx⟩ := hstored hash List.mem_cons_self
      obtain ⟨r, -, rfl⟩ := tryOrphan_ok htx hone
      refine ih (fun a ha => ?_) hrest
      rw [recorded_orphans]
      exact hstored a (List.mem_cons_of_mem _ ha)

/-- The rounds are enough: the loop is left early only by an exception of
`AcceptToMemoryPool`. -/
theorem processQueue_error {fuel : Nat} {e : Exit} (hmatched : work.orphans.Matched env)
    (hfuel : work.todo w ≤ fuel) (h : processQueue env tx fuel work w = .error e w') :
    ∃ orphanTx w₂, CTransaction.acceptToMemoryPool env orphanTx true w₂ = .error e w' := by
  induction fuel generalizing work w with
  | zero =>
    have hnil : work.vWorkQueue = [] :=
      List.length_eq_zero_iff.mp (by unfold OrphanWork.todo at hfuel; omega)
    rw [processQueue_nil _ hnil] at h
    cases h
  | succ fuel ih =>
    cases hqueue : work.vWorkQueue with
    | nil =>
      rw [processQueue_nil _ hqueue] at h
      cases h
    | cons hashPrev rest =>
      rw [processQueue_cons hqueue] at h
      rcases bind_eq_error.mp h with hround | ⟨work₁, w₂, hround, hrest⟩
      · have hloop : (dependants work.orphans hashPrev).foldlM (tryOrphan env tx)
            { work with orphans := OrphanWork.looked work.orphans hashPrev, vWorkQueue := rest } w =
              .error e w' := by
          rw [dependants, ← OrphanTxs.subscript_byPrev]
          exact hround
        refine foldlM_tryOrphan_error (fun a ha => ?_) hloop
        obtain ⟨orphanTx, hstored, -⟩ := (mem_dependants hmatched).mp ha
        exact ⟨orphanTx, hstored⟩
      · obtain ⟨hmatched₁, htodo⟩ := tryDependants_todo hmatched hqueue hround
        exact ih hmatched₁ (by omega) hrest

end TxWork

/-! ## The message -/

section message

variable {env : Env} {orphans orphans' : OrphanTxs} {tx : CTransaction} {calls : TxCalls}
  {w w₁ w' : World} {tries : List Try}

/-- The tries of one message: stored orphans that depend on what has entered the pool, each of
them after everything it depends on; what enters does so once and is relayed once, and neither
it nor what is found invalid stays an orphan. -/
structure Handled (env : Env) (orphans : OrphanTxs) (tx : CTransaction) (w w₁ w' : World)
    (orphans' : OrphanTxs) (calls : TxCalls) (tries : List Try) : Prop where
  replay : Tries env w₁ tries w'
  justified : ∀ t ∈ tries, orphans.mapOrphanTransactions[t.hash]? = some t.tx ∧
    ∃ p, orphans.Spends t.hash p ∧ TriedAfter env tx tries p t.hash
  complete : ∀ p ∈ (entered env tx tries).map Prod.snd, ∀ a, orphans.Spends a p →
    TriedAfter env tx tries p a
  pool : w'.node.mempool = (entered env tx tries).foldl
    (fun pool item => pool.addUnchecked item.2 item.1) w.node.mempool
  once : ((entered env tx tries).map Prod.snd).Nodup
  relayed : calls.relayed = entered env tx tries
  left : ∀ a : Uint256, orphans'.mapOrphanTransactions[a]? =
    if a = tx.getHash env ∨ ∃ t ∈ tries, t.hash = a ∧ t.result ≠ .error missingInputs then none
    else orphans.mapOrphanTransactions[a]?

/-- The wallets are handed what enters the pool, each transaction once. -/
def Told (env : Env) (orphans : OrphanTxs) (tx : CTransaction) (w w' : World)
    (orphans' : OrphanTxs) (calls : TxCalls) : Prop :=
  (∀ w₁, tx.acceptToMemoryPool env true w = .ok () w₁ → ∃ tries,
    Handled env orphans tx w w₁ w' orphans' calls tries ∧
      calls.synced = (entered env tx tries).map Prod.fst) ∧
  ((∀ w₁, tx.acceptToMemoryPool env true w ≠ .ok () w₁) →
    calls = ⟨[], []⟩ ∧ w'.node = w.node)

theorem Tries.mempool (h : Tries env w tries w')
    (hkeys : ∀ t ∈ tries, t.tx.getHash env = t.hash) : w'.node.mempool =
      ((tries.filter Try.isAccepted).map fun t => (t.tx, t.hash)).foldl
        (fun pool item => pool.addUnchecked item.2 item.1) w.node.mempool := by
  induction h with
  | nil => rfl
  | @snoc tries w₁ w' t _ hrun ih =>
    have hpool := ih fun t ht => hkeys t (List.mem_append_left _ ht)
    have hkey := hkeys t (List.mem_append_right _ (List.mem_singleton_self t))
    rcases attempt_eq_ok.mp hrun with ⟨u, hresult, haccept⟩ | ⟨e, hresult, hfail⟩
    · have haccepted : t.isAccepted = true := by rw [Try.isAccepted, hresult]
      have hnew := (CTxMemPool.acceptToMemoryPool_ok haccept).2
      rw [hnew, hpool, hkey, List.filter_append, List.map_append, List.foldl_append]
      simp [haccepted]
    · have hrefused : t.isAccepted = false := by rw [Try.isAccepted, hresult]
      have hnode := (CTxMemPool.acceptToMemoryPool_failsClean env t.tx true w₁ e w' hfail).node
      rw [hnode, hpool, List.filter_append, List.map_append]
      simp [hrefused]

/-- The record of a message whose transaction is accepted, at the start of the work queue. -/
theorem start_recorded (haccept : tx.acceptToMemoryPool env true w = .ok () w₁) :
    Recorded env orphans tx w₁ [] (.start env orphans tx) w₁ [] where
  replay := .nil
  stored := rfl
  relayed := rfl
  synced := rfl
  erase a := by simp [TxWork.start]
  queue := rfl
  justified t ht := absurd ht List.not_mem_nil
  once := List.nodup_singleton _
  pooled item hitem := by
    obtain rfl := List.mem_singleton.mp hitem
    rw [(CTxMemPool.acceptToMemoryPool_ok haccept).2]
    show (w.node.mempool.mapTx.insert _ tx)[_]? = _
    rw [Map.getElem?_insert, if_pos rfl]

/-- The record at the end of the work queue is what the message leaves behind. -/
theorem handled_of_recorded {work : TxWork} {done : List Uint256} (hmatched : orphans.Matched env)
    (haccept : tx.acceptToMemoryPool env true w = .ok () w₁)
    (hrec : Recorded env orphans tx w₁ done work w' tries)
    (htried : TxWork.TriedAll env orphans tx tries done) (hend : work.vWorkQueue = []) :
    Handled env orphans tx w w₁ w' (work.vEraseQueue.foldl OrphanTxs.eraseOrphanTx work.orphans)
      work.toTxCalls tries := by
  have hdone : (entered env tx tries).map Prod.snd = done := by
    have hqueue := hrec.queue
    rwa [hend, List.append_nil] at hqueue
  have hkeys : ∀ t ∈ tries, t.tx.getHash env = t.hash :=
    fun t ht => hmatched.keyed _ _ (hrec.justified t ht).1
  refine ⟨hrec.replay, hrec.justified, ?_, ?_, hrec.once, hrec.relayed, fun a => ?_⟩
  · rw [hdone]
    exact htried
  · rw [hrec.replay.mempool hkeys, (CTxMemPool.acceptToMemoryPool_ok haccept).2]
    rfl
  · rw [OrphanTxs.getElem?_foldl_eraseOrphanTx, hrec.stored]
    simp only [hrec.erase]

/-- What a message whose transaction is accepted leaves behind. -/
theorem handled_of_accepted (hmatched : orphans.Matched env) {random : Nat → Uint256}
    (haccept : tx.acceptToMemoryPool env true w = .ok () w₁)
    (hrun : txMessage env random orphans tx w = .ok (orphans', calls) w') :
    ∃ tries, Handled env orphans tx w w₁ w' orphans' calls tries ∧
      calls.synced = List.replicate (entered env tx tries).length tx ∧
      ((∀ t ∈ tries, t.isAccepted = false) ↔
        TxWork.RefusedAll env orphans (TxWork.dependants orphans (tx.getHash env)) w₁) := by
  have hattempt : attempt (tx.acceptToMemoryPool env true) w = .ok (.ok ()) w₁ :=
    attempt_eq_ok.mpr (.inl ⟨(), rfl, haccept⟩)
  unfold txMessage at hrun
  obtain ⟨r, w₂, hattempt', hrun⟩ := bind_eq_ok.mp hrun
  obtain ⟨rfl, rfl⟩ := EStateM.Result.ok.inj (hattempt.symm.trans hattempt')
  obtain ⟨work, w₃, hqueue, hrun⟩ := bind_eq_ok.mp hrun
  obtain ⟨hout, rfl⟩ := pure_eq_ok.mp hrun
  obtain ⟨rfl, rfl⟩ := Prod.mk.inj hout
  rw [TxWork.processQueue_cons rfl] at hqueue
  obtain ⟨work₁, w₄, hround, hrest⟩ := bind_eq_ok.mp hqueue
  have hstart : (TxWork.start env orphans tx).todo w₁ ≤ orphans.mapOrphanTransactions.size + 1 :=
    OrphanWork.todo_message orphans _ w₁
  obtain ⟨hmatched₁, htodo⟩ := TxWork.tryDependants_todo hmatched rfl hround
  obtain ⟨first, hrec₁, htried₁, hrefused⟩ := TxWork.record_round (start_recorded haccept) hmatched
    hmatched rfl (fun p hp => absurd hp List.not_mem_nil) hround
  rw [List.nil_append, List.nil_append] at hrec₁ htried₁
  by_cases hall : ∀ t ∈ first, t.isAccepted = false
  · -- nothing has entered the queue, so the first round is the last one
    have hnone : first.filter Try.isAccepted = [] :=
      List.filter_eq_nil_iff.mpr fun t ht => Bool.eq_false_iff.mp (hall t ht)
    have hend : work₁.vWorkQueue = [] := by
      have hqueue := hrec₁.queue
      rw [entered, hnone] at hqueue
      exact (List.cons.inj hqueue).2.symm
    rw [TxWork.processQueue_nil _ hend] at hrest
    obtain ⟨rfl, rfl⟩ := EStateM.Result.ok.inj hrest
    exact ⟨first, handled_of_recorded hmatched haccept hrec₁ htried₁ hend,
      hrec₁.relayed ▸ hrec₁.synced, hrefused⟩
  · obtain ⟨more, done, hrec, htried, hend⟩ :=
      TxWork.record_queue hrec₁ hmatched hmatched₁ htried₁ (by omega) hrest
    refine ⟨first ++ more, handled_of_recorded hmatched haccept hrec htried hend,
      hrec.relayed ▸ hrec.synced, iff_of_false (fun hnone => hall fun t ht => ?_) ?_⟩
    · exact hnone t (List.mem_append_left _ ht)
    · exact fun hfirst => hall (hrefused.mpr hfirst)

/-- The wallets have been handed the right transactions only where nothing but the incoming one
has entered the pool. -/
theorem synced_eq_iff (hmatched : orphans.Matched env)
    (hhandled : Handled env orphans tx w w₁ w' orphans' calls tries)
    (hsynced : calls.synced = List.replicate (entered env tx tries).length tx) :
    calls.synced = (entered env tx tries).map Prod.fst ↔ ∀ t ∈ tries, t.isAccepted = false := by
  rw [hsynced]
  constructor
  · intro heq t ht
    by_contra haccepted
    have haccepted : t.isAccepted = true := Bool.eq_true_of_not_eq_false haccepted
    have hmem : (t.tx, t.hash) ∈ (tries.filter Try.isAccepted).map fun t => (t.tx, t.hash) :=
      List.mem_map.mpr ⟨t, List.mem_filter.mpr ⟨ht, haccepted⟩, rfl⟩
    have hsame : t.tx = tx := by
      refine List.eq_of_mem_replicate (n := (entered env tx tries).length) ?_
      rw [heq]
      exact List.mem_map.mpr ⟨(t.tx, t.hash), List.mem_cons_of_mem _ hmem, rfl⟩
    have hkey := hmatched.keyed _ _ (hhandled.justified t ht).1
    have honce := hhandled.once
    rw [entered, List.map_cons, List.nodup_cons] at honce
    exact honce.1 (List.mem_map.mpr ⟨(t.tx, t.hash), hmem, by rw [← hkey, hsame]⟩)
  · intro hall
    have hnone : tries.filter Try.isAccepted = [] :=
      List.filter_eq_nil_iff.mpr fun t ht => Bool.eq_false_iff.mp (hall t ht)
    rw [entered, hnone]
    rfl

theorem told_iff (hmatched : orphans.Matched env) {random : Nat → Uint256}
    (hrun : txMessage env random orphans tx w = .ok (orphans', calls) w') :
    Told env orphans tx w w' orphans' calls ↔
      ∀ w₁, tx.acceptToMemoryPool env true w = .ok () w₁ →
        TxWork.RefusedAll env orphans (TxWork.dependants orphans (tx.getHash env)) w₁ := by
  constructor
  · rintro ⟨htold, -⟩ w₁ haccept
    obtain ⟨tries, hhandled, hsynced⟩ := htold w₁ haccept
    obtain ⟨tries', hhandled', hreplicate, hrefused⟩ := handled_of_accepted hmatched haccept hrun
    have hsame : entered env tx tries' = entered env tx tries :=
      hhandled'.relayed.symm.trans hhandled.relayed
    refine hrefused.mp ((synced_eq_iff hmatched hhandled' hreplicate).mp ?_)
    rw [hsynced, hsame]
  · intro hrefused
    refine ⟨fun w₁ haccept => ?_, fun hnot => ?_⟩
    · obtain ⟨tries, hhandled, hreplicate, hiff⟩ := handled_of_accepted hmatched haccept hrun
      exact ⟨tries, hhandled, (synced_eq_iff hmatched hhandled hreplicate).mpr
        (hiff.mpr (hrefused w₁ haccept))⟩
    · unfold txMessage at hrun
      obtain ⟨r, w₂, hattempt, hrun⟩ := bind_eq_ok.mp hrun
      rcases attempt_eq_ok.mp hattempt with ⟨u, rfl, haccept⟩ | ⟨e, rfl, hfail⟩
      · exact absurd haccept (hnot w₂)
      · have hnode := (CTxMemPool.acceptToMemoryPool_failsClean env tx true w e w₂ hfail).node
        cases e with
        | abort what => exact absurd hrun error_ne_ok
        | reject nDoS text =>
          dsimp only at hrun
          split at hrun
          · obtain ⟨hout, rfl⟩ := pure_eq_ok.mp hrun
            exact ⟨(Prod.mk.inj hout).2, hnode⟩
          · obtain ⟨hout, rfl⟩ := pure_eq_ok.mp hrun
            exact ⟨(Prod.mk.inj hout).2, hnode⟩

theorem txMessage_error (hmatched : orphans.Matched env) {random : Nat → Uint256} {e : Exit}
    (hrun : txMessage env random orphans tx w = .error e w') :
    ∃ tx' w₂, CTransaction.acceptToMemoryPool env tx' true w₂ = .error e w' := by
  unfold txMessage at hrun
  rcases bind_eq_error.mp hrun with hattempt | ⟨r, w₂, hattempt, hrun⟩
  · unfold attempt at hattempt
    split at hattempt <;> cases hattempt
  · rcases attempt_eq_ok.mp hattempt with ⟨u, rfl, -⟩ | ⟨e', rfl, hfail⟩
    · rcases bind_eq_error.mp hrun with hqueue | ⟨work, w₃, -, hrun⟩
      · exact TxWork.processQueue_error hmatched (OrphanWork.todo_message orphans _ w₂) hqueue
      · cases hrun
    · cases e' with
      | abort what =>
        cases hrun
        exact ⟨tx, w, hfail⟩
      | reject nDoS text =>
        dsimp only at hrun
        split at hrun <;> cases hrun

end message

/-- A transaction that spends the output of `spendingTx`. -/
def paymentTx : CTransaction :=
  ⟨1, 1600000000, [⟨⟨spendingTx.getHash testNet, 0⟩, [], uint32Max⟩], [⟨coin / 2, [0x51]⟩], 0⟩

/-- A node that has `pooledTx` in its pool. -/
def pooledWorld : World :=
  idleWorld (CTxMemPool.clear.addUnchecked (pooledTx.getHash testNet) pooledTx)

end NoLimitCoin
