import NoLimitCoin.MemPoolRuns
import NoLimitCoin.OrphanTx

/-!
# Runs of the orphan transaction index

`mapOrphanTransactionsByPrev` has a key for every transaction that a stored orphan depends on, and
no other key, as long as no other key is looked up: the lookup inserts it.

Results:

1. `addOrphanTx_indexed`, `eraseOrphanTx_indexed`, `limitOrphanTxSize_indexed`: the helpers keep
   the two maps in step.
2. `processQueue_enough`, `todo_message`: the work queue of a `tx` message comes to an end.
3. `orphanTx_indexed`: the index is right in every run whose messages look up no other key.
4. `not_orphanTx_indexed`: accepting a transaction nobody depends on leaves a key behind.
-/

namespace NoLimitCoin

open Prog NodeM

namespace OrphanTxs

/-! ## The index -/

/-- The hashes that are found under `p`. -/
def hashesOf (byPrev : Map Uint256 (Finset Uint256)) (p : Uint256) : Finset Uint256 :=
  (byPrev[p]?).getD ∅

/-- The stored orphan `h` spends an output of `p`. -/
def Spends (orphans : OrphanTxs) (h p : Uint256) : Prop :=
  ∃ tx : CTransaction, orphans.mapOrphanTransactions[h]? = some tx ∧
    ∃ txin ∈ tx.vin, txin.prevout.hash = p

/-- The second map leads to the orphans of the first one. -/
structure Matched (env : Env) (orphans : OrphanTxs) : Prop where
  keyed : ∀ (h : Uint256) (tx : CTransaction), orphans.mapOrphanTransactions[h]? = some tx →
    tx.getHash env = h
  hashes : ∀ p h, h ∈ hashesOf orphans.mapOrphanTransactionsByPrev p ↔ orphans.Spends h p

/-- The second map is the index of the first one: it has no key that leads nowhere. -/
structure Indexed (env : Env) (orphans : OrphanTxs) : Prop extends Matched env orphans where
  nonempty : ∀ p : Uint256, orphans.mapOrphanTransactionsByPrev[p]? ≠ some ∅

variable {env : Env} {orphans : OrphanTxs} {byPrev : Map Uint256 (Finset Uint256)}
  {hash : Uint256}

theorem subscript_byPrev (byPrev : Map Uint256 (Finset Uint256)) (k : Uint256) :
    (Map.subscript byPrev k ∅).1 = hashesOf byPrev k := by
  unfold Map.subscript hashesOf
  cases byPrev[k]? <;> rfl

theorem getElem?_subscript_of_ne {k p : Uint256} (h : k ≠ p) :
    (Map.subscript byPrev k ∅).2[p]? = byPrev[p]? := by
  unfold Map.subscript
  cases byPrev[k]? with
  | none => exact Map.getElem?_insert_of_ne _ _ h
  | some s => rfl

theorem subscript_of_some {K V : Type} [Ord K] [Std.TransOrd K] {m : Map K V} {k : K} {v d : V}
    (h : m[k]? = some v) : Map.subscript m k d = (v, m) := by
  rw [Map.subscript, h]

/-- One input more in the index. -/
theorem indexInput_spec (hash : Uint256) (byPrev : Map Uint256 (Finset Uint256)) (txin : CTxIn) :
    (∀ p, hashesOf (indexInput hash byPrev txin) p =
      if txin.prevout.hash = p then insert hash (hashesOf byPrev p) else hashesOf byPrev p) ∧
    ((∀ p : Uint256, byPrev[p]? ≠ some ∅) →
      ∀ p : Uint256, (indexInput hash byPrev txin)[p]? ≠ some ∅) := by
  have hget : ∀ p : Uint256, (indexInput hash byPrev txin)[p]? =
      if txin.prevout.hash = p then some (insert hash (hashesOf byPrev txin.prevout.hash))
      else byPrev[p]? := by
    intro p
    show ((Map.subscript byPrev _ ∅).2.insert _ (insert hash (Map.subscript byPrev _ ∅).1))[p]? = _
    rw [Map.getElem?_insert, subscript_byPrev]
    split
    · rfl
    · next hne => exact getElem?_subscript_of_ne hne
  constructor
  · intro p
    rw [hashesOf, hget]
    split
    · next heq => rw [heq, Option.getD_some]
    · rfl
  · intro hne p
    rw [hget]
    split
    · exact fun heq => Finset.insert_ne_empty _ _ (Option.some.inj heq)
    · exact hne p

theorem foldl_indexInput (hash : Uint256) (vin : List CTxIn) (byPrev : Map Uint256 (Finset Uint256)) :
    (∀ p h, h ∈ hashesOf (vin.foldl (indexInput hash) byPrev) p ↔
      h ∈ hashesOf byPrev p ∨ (h = hash ∧ ∃ txin ∈ vin, txin.prevout.hash = p)) ∧
    ((∀ p : Uint256, byPrev[p]? ≠ some ∅) →
      ∀ p : Uint256, (vin.foldl (indexInput hash) byPrev)[p]? ≠ some ∅) := by
  induction vin generalizing byPrev with
  | nil => exact ⟨fun p h => by simp, fun h => h⟩
  | cons txin vin ih =>
    obtain ⟨hhashes, hnonempty⟩ := ih (indexInput hash byPrev txin)
    obtain ⟨hhead, hhead'⟩ := indexInput_spec hash byPrev txin
    refine ⟨fun p h => ?_, fun hne => hnonempty (hhead' hne)⟩
    rw [List.foldl_cons, hhashes, hhead, List.exists_mem_cons_iff]
    by_cases hp : txin.prevout.hash = p
    · simp only [hp, if_true, Finset.mem_insert, true_or, and_true]
      tauto
    · simp only [hp, if_false, false_or]

/-- One input less in the index. -/
theorem unindexInput_spec (hash : Uint256) (byPrev : Map Uint256 (Finset Uint256)) (txin : CTxIn) :
    (∀ p, hashesOf (unindexInput hash byPrev txin) p =
      if txin.prevout.hash = p then (hashesOf byPrev p).erase hash else hashesOf byPrev p) ∧
    ((∀ p : Uint256, byPrev[p]? ≠ some ∅) →
      ∀ p : Uint256, (unindexInput hash byPrev txin)[p]? ≠ some ∅) := by
  have hget : ∀ p : Uint256, (unindexInput hash byPrev txin)[p]? =
      if txin.prevout.hash = p then
        (if (hashesOf byPrev txin.prevout.hash).erase hash = ∅ then none
        else some ((hashesOf byPrev txin.prevout.hash).erase hash))
      else byPrev[p]? := by
    intro p
    have hrun : unindexInput hash byPrev txin =
        if (Map.subscript byPrev txin.prevout.hash ∅).1.erase hash = ∅ then
          ((Map.subscript byPrev txin.prevout.hash ∅).2.insert txin.prevout.hash
            ((Map.subscript byPrev txin.prevout.hash ∅).1.erase hash)).erase txin.prevout.hash
        else (Map.subscript byPrev txin.prevout.hash ∅).2.insert txin.prevout.hash
          ((Map.subscript byPrev txin.prevout.hash ∅).1.erase hash) := rfl
    rw [hrun, subscript_byPrev]
    split
    · next hempty =>
      rw [Map.getElem?_erase]
      split
      · rfl
      · next hne => rw [Map.getElem?_insert_of_ne _ _ hne, getElem?_subscript_of_ne hne]
    · rw [Map.getElem?_insert]
      split
      · rfl
      · next hne => exact getElem?_subscript_of_ne hne
  constructor
  · intro p
    rw [hashesOf, hget]
    split
    · next heq =>
      rw [heq]
      split
      · next hempty => rw [hempty]; rfl
      · rfl
    · rfl
  · intro hne p
    rw [hget]
    split
    · split
      · exact Option.some_ne_none _ |>.symm
      · next hne' => exact fun heq => hne' (Option.some.inj heq)
    · exact hne p

theorem foldl_unindexInput (hash : Uint256) (vin : List CTxIn) (byPrev : Map Uint256 (Finset Uint256)) :
    (∀ p h, h ∈ hashesOf (vin.foldl (unindexInput hash) byPrev) p ↔
      h ∈ hashesOf byPrev p ∧ ¬ (h = hash ∧ ∃ txin ∈ vin, txin.prevout.hash = p)) ∧
    ((∀ p : Uint256, byPrev[p]? ≠ some ∅) →
      ∀ p : Uint256, (vin.foldl (unindexInput hash) byPrev)[p]? ≠ some ∅) := by
  induction vin generalizing byPrev with
  | nil => exact ⟨fun p h => by simp, fun h => h⟩
  | cons txin vin ih =>
    obtain ⟨hhashes, hnonempty⟩ := ih (unindexInput hash byPrev txin)
    obtain ⟨hhead, hhead'⟩ := unindexInput_spec hash byPrev txin
    refine ⟨fun p h => ?_, fun hne => hnonempty (hhead' hne)⟩
    rw [List.foldl_cons, hhashes, hhead, List.exists_mem_cons_iff]
    by_cases hp : txin.prevout.hash = p
    · simp only [hp, if_true, Finset.mem_erase, true_or, and_true]
      tauto
    · simp only [hp, if_false, false_or]

/-! ## The helpers -/

theorem empty_indexed (env : Env) : Indexed env ⟨∅, ∅⟩ where
  keyed h tx htx := by simp at htx
  hashes p h := by simp [hashesOf, Spends]
  nonempty p := by simp

theorem addOrphanTx_matched (h : Matched env orphans) (tx : CTransaction) :
    Matched env (orphans.addOrphanTx env tx).2 := by
  unfold addOrphanTx
  dsimp only
  split
  · exact h
  · next habsent =>
    split
    · exact h
    · have hnone : orphans.mapOrphanTransactions[tx.getHash env]? = none := by
        rw [Bool.not_eq_true, Map.contains_eq_false_iff] at habsent
        exact habsent
      obtain ⟨hhashes, -⟩ := foldl_indexInput (tx.getHash env) tx.vin
        orphans.mapOrphanTransactionsByPrev
      refine ⟨fun a t ha => ?_, fun p a => ?_⟩
      · change (orphans.mapOrphanTransactions.insert _ tx)[a]? = some t at ha
        rw [Map.getElem?_insert] at ha
        split at ha
        · next heq => rw [← Option.some.inj ha, heq]
        · exact h.keyed a t ha
      · rw [hhashes, h.hashes]
        show _ ↔ ∃ t, (orphans.mapOrphanTransactions.insert _ tx)[a]? = some t ∧ _
        simp only [Map.getElem?_insert]
        by_cases heq : tx.getHash env = a
        · rw [if_pos heq]
          constructor
          · rintro (⟨t, ht, -⟩ | ⟨-, hin⟩)
            · rw [← heq, hnone] at ht
              exact absurd ht (by simp)
            · exact ⟨tx, rfl, hin⟩
          · rintro ⟨t, ht, hin⟩
            exact .inr ⟨heq.symm, Option.some.inj ht ▸ hin⟩
        · rw [if_neg heq]
          constructor
          · rintro (hspends | ⟨rfl, -⟩)
            · exact hspends
            · exact absurd rfl heq
          · exact .inl

theorem addOrphanTx_indexed (h : Indexed env orphans) (tx : CTransaction) :
    Indexed env (orphans.addOrphanTx env tx).2 := by
  refine ⟨addOrphanTx_matched h.toMatched tx, ?_⟩
  unfold addOrphanTx
  dsimp only
  split
  · exact h.nonempty
  · split
    · exact h.nonempty
    · exact (foldl_indexInput _ _ _).2 h.nonempty

theorem eraseOrphanTx_matched (h : Matched env orphans) (hash : Uint256) :
    Matched env (orphans.eraseOrphanTx hash) := by
  unfold eraseOrphanTx
  cases htx : orphans.mapOrphanTransactions[hash]? with
  | none => exact h
  | some tx =>
    obtain ⟨hhashes, -⟩ := foldl_unindexInput hash tx.vin orphans.mapOrphanTransactionsByPrev
    refine ⟨fun a t ha => ?_, fun p a => ?_⟩
    · change (orphans.mapOrphanTransactions.erase hash)[a]? = some t at ha
      rw [Map.getElem?_erase] at ha
      split at ha
      · exact absurd ha (by simp)
      · exact h.keyed a t ha
    · rw [hhashes, h.hashes]
      show _ ↔ ∃ t, (orphans.mapOrphanTransactions.erase hash)[a]? = some t ∧ _
      simp only [Map.getElem?_erase]
      by_cases heq : hash = a
      · rw [if_pos heq]
        constructor
        · rintro ⟨⟨t, ht, hin⟩, hnot⟩
          rw [← heq, htx] at ht
          exact absurd ⟨heq.symm, Option.some.inj ht ▸ hin⟩ hnot
        · rintro ⟨t, ht, -⟩
          exact absurd ht (by simp)
      · rw [if_neg heq]
        constructor
        · rintro ⟨hspends, -⟩
          exact hspends
        · exact fun hspends => ⟨hspends, fun hboth => heq hboth.1.symm⟩

theorem eraseOrphanTx_indexed (h : Indexed env orphans) (hash : Uint256) :
    Indexed env (orphans.eraseOrphanTx hash) := by
  refine ⟨eraseOrphanTx_matched h.toMatched hash, ?_⟩
  unfold eraseOrphanTx
  cases orphans.mapOrphanTransactions[hash]? with
  | none => exact h.nonempty
  | some tx => exact (foldl_unindexInput _ _ _).2 h.nonempty

theorem limitLoop_matched (nMaxOrphans fuel : Nat) (random : Nat → Uint256) (nEvicted : Nat)
    (h : Matched env orphans) :
    Matched env (limitLoop nMaxOrphans fuel random nEvicted orphans).2 := by
  induction fuel generalizing random nEvicted orphans with
  | zero => exact h
  | succ fuel ih =>
    unfold limitLoop
    split
    · split
      · exact h
      · next hash _ => exact ih _ _ (eraseOrphanTx_matched h hash)
    · exact h

theorem foldl_eraseOrphanTx_matched (h : Matched env orphans) (hashes : List Uint256) :
    Matched env (hashes.foldl eraseOrphanTx orphans) := by
  induction hashes generalizing orphans with
  | nil => exact h
  | cons hash hashes ih => exact ih (eraseOrphanTx_matched h hash)

theorem getElem?_eraseOrphanTx (orphans : OrphanTxs) (hash a : Uint256) :
    (orphans.eraseOrphanTx hash).mapOrphanTransactions[a]? =
      if hash = a then none else orphans.mapOrphanTransactions[a]? := by
  unfold eraseOrphanTx
  cases htx : orphans.mapOrphanTransactions[hash]? with
  | none =>
    dsimp only
    rcases eq_or_ne hash a with rfl | hne
    · rw [if_pos rfl, htx]
    · rw [if_neg hne]
  | some tx => exact Map.getElem?_erase _ _ _

/-- The orphans that are left when all of a queue are erased. -/
theorem getElem?_foldl_eraseOrphanTx (orphans : OrphanTxs) (hashes : List Uint256) (a : Uint256) :
    (hashes.foldl eraseOrphanTx orphans).mapOrphanTransactions[a]? =
      if a ∈ hashes then none else orphans.mapOrphanTransactions[a]? := by
  induction hashes generalizing orphans with
  | nil => simp
  | cons hash hashes ih =>
    rw [List.foldl_cons, ih, getElem?_eraseOrphanTx]
    rcases eq_or_ne hash a with rfl | hne
    · simp
    · simp [hne, hne.symm]

theorem size_eraseOrphanTx (orphans : OrphanTxs) (hash : Uint256) :
    (orphans.eraseOrphanTx hash).mapOrphanTransactions.size =
      if orphans.mapOrphanTransactions.contains hash then orphans.mapOrphanTransactions.size - 1
      else orphans.mapOrphanTransactions.size := by
  unfold eraseOrphanTx
  cases htx : orphans.mapOrphanTransactions[hash]? with
  | none => rw [(Map.contains_eq_false_iff _ _).mpr htx]; rfl
  | some tx =>
    rw [(Map.contains_iff _ _).mpr ⟨tx, htx⟩]
    show (orphans.mapOrphanTransactions.erase hash).size = _
    rw [Std.ExtTreeMap.size_erase, if_pos]
    · rfl
    · exact (Map.contains_iff _ _).mpr ⟨tx, htx⟩

theorem evicted_mem (random : Uint256) (h : orphans.mapOrphanTransactions.size ≠ 0) :
    ∃ hash, orphans.evicted random = some hash ∧
      orphans.mapOrphanTransactions.contains hash = true := by
  have hmem : ∀ {hash}, hash ∈ orphans.mapOrphanTransactions.keys →
      orphans.mapOrphanTransactions.contains hash = true := by
    intro hash hin
    rw [Std.ExtTreeMap.mem_keys, ← Std.ExtTreeMap.contains_iff_mem] at hin
    exact hin
  unfold evicted
  dsimp only
  cases hfind : orphans.mapOrphanTransactions.keys.find? fun hash => decide (random ≤ hash) with
  | some hash => exact ⟨hash, rfl, hmem (List.mem_of_find?_eq_some hfind)⟩
  | none =>
    cases hkeys : orphans.mapOrphanTransactions.keys with
    | nil =>
      rw [← Std.ExtTreeMap.length_keys, hkeys] at h
      exact absurd rfl h
    | cons hash hashes => exact ⟨hash, rfl, hmem (by rw [hkeys]; exact List.mem_cons_self)⟩

theorem limitLoop_indexed (nMaxOrphans fuel : Nat) (random : Nat → Uint256) (nEvicted : Nat)
    (h : Indexed env orphans) (hfuel : orphans.mapOrphanTransactions.size ≤ nMaxOrphans + fuel) :
    Indexed env (limitLoop nMaxOrphans fuel random nEvicted orphans).2 ∧
      (limitLoop nMaxOrphans fuel random nEvicted orphans).2.mapOrphanTransactions.size ≤
        nMaxOrphans := by
  induction fuel generalizing random nEvicted orphans with
  | zero => exact ⟨h, hfuel⟩
  | succ fuel ih =>
    unfold limitLoop
    split
    · next hlt =>
      obtain ⟨hash, hevicted, hmem⟩ := evicted_mem (random 0) (show orphans.mapOrphanTransactions.size ≠ 0 by omega)
      rw [hevicted]
      refine ih _ _ (eraseOrphanTx_indexed h hash) ?_
      rw [size_eraseOrphanTx, if_pos hmem]
      omega
    · next hle => exact ⟨h, Nat.le_of_not_lt hle⟩

theorem limitOrphanTxSize_indexed (h : Indexed env orphans) (nMaxOrphans : Nat)
    (random : Nat → Uint256) : Indexed env (orphans.limitOrphanTxSize nMaxOrphans random).2 ∧
      (orphans.limitOrphanTxSize nMaxOrphans random).2.mapOrphanTransactions.size ≤ nMaxOrphans :=
  limitLoop_indexed nMaxOrphans _ random 0 h (Nat.le_add_left _ _)

theorem foldl_eraseOrphanTx_indexed (h : Indexed env orphans) (hashes : List Uint256) :
    Indexed env (hashes.foldl eraseOrphanTx orphans) ∧
      (hashes.foldl eraseOrphanTx orphans).mapOrphanTransactions.size ≤
        orphans.mapOrphanTransactions.size := by
  induction hashes generalizing orphans with
  | nil => exact ⟨h, Nat.le_refl _⟩
  | cons hash hashes ih =>
    obtain ⟨hindexed, hsize⟩ := ih (eraseOrphanTx_indexed h hash)
    refine ⟨hindexed, hsize.trans ?_⟩
    rw [size_eraseOrphanTx]
    split
    · exact Nat.sub_le _ _
    · exact Nat.le_refl _

/-- The stored orphans that are not in the pool. -/
def waiting (orphans : OrphanTxs) (pool : CTxMemPool) : Finset Uint256 :=
  orphans.mapOrphanTransactions.keys.toFinset.filter fun h => !pool.mapTx.contains h

theorem card_waiting_le (orphans : OrphanTxs) (pool : CTxMemPool) :
    (orphans.waiting pool).card ≤ orphans.mapOrphanTransactions.size :=
  (Finset.card_filter_le _ _).trans
    ((List.toFinset_card_le _).trans Std.ExtTreeMap.length_keys.le)

theorem card_waiting_addUnchecked {pool : CTxMemPool} {tx : CTransaction}
    (hstored : orphans.mapOrphanTransactions[hash]? = some tx)
    (hfresh : pool.mapTx[hash]? = none) :
    (orphans.waiting (pool.addUnchecked hash tx)).card + 1 ≤ (orphans.waiting pool).card := by
  have hmem : hash ∈ orphans.waiting pool := by
    refine Finset.mem_filter.mpr ⟨?_, ?_⟩
    · rw [List.mem_toFinset, Std.ExtTreeMap.mem_keys, ← Std.ExtTreeMap.contains_iff_mem]
      exact (Map.contains_iff _ _).mpr ⟨tx, hstored⟩
    · rw [(Map.contains_eq_false_iff _ _).mpr hfresh]
      rfl
  refine Finset.card_lt_card (Finset.ssubset_iff_of_subset ?_ |>.mpr ⟨hash, hmem, ?_⟩)
  · intro h hh
    obtain ⟨hkeys, hnot⟩ := Finset.mem_filter.mp hh
    refine Finset.mem_filter.mpr ⟨hkeys, ?_⟩
    rw [Bool.not_eq_true', Map.contains_eq_false_iff] at hnot ⊢
    change (pool.mapTx.insert hash tx)[h]? = none at hnot
    rw [Map.getElem?_insert] at hnot
    split at hnot
    · exact absurd hnot (by simp)
    · exact hnot
  · intro hh
    have hnot := (Finset.mem_filter.mp hh).2
    rw [Bool.not_eq_true', Map.contains_eq_false_iff] at hnot
    change (pool.mapTx.insert hash tx)[hash]? = none at hnot
    rw [Map.getElem?_insert, if_pos rfl] at hnot
    exact absurd hnot (by simp)

end OrphanTxs

/-! ## The work queue -/

namespace OrphanWork

variable {env : Env} {work work' : OrphanWork} {w w' : World}

/-- What bounds the rounds still to come: the transactions in the queue, and the orphans that can
still be accepted. -/
def todo (work : OrphanWork) (w : World) : Nat :=
  work.vWorkQueue.length + (work.orphans.waiting w.node.mempool).card

/-- Trying a stored orphan leaves the orphans alone. -/
theorem tryOrphan_ok (hmatched : work.orphans.Matched env) {hash : Uint256} {tx : CTransaction}
    (hstored : work.orphans.mapOrphanTransactions[hash]? = some tx)
    (h : work.tryOrphan env hash w = .ok work' w') :
    work'.orphans = work.orphans ∧ work'.todo w' ≤ work.todo w := by
  unfold tryOrphan at h
  rw [OrphanTxs.subscript_of_some hstored] at h
  obtain ⟨r, w₁, hattempt, h⟩ := bind_eq_ok.mp h
  rcases attempt_eq_ok.mp hattempt with ⟨u, rfl, hrun⟩ | ⟨e, rfl, hrun⟩
  · obtain ⟨rfl, rfl⟩ := pure_eq_ok.mp h
    obtain ⟨hno, hpool⟩ := CTxMemPool.acceptToMemoryPool_ok hrun
    refine ⟨rfl, ?_⟩
    have hkey := hmatched.keyed hash tx hstored
    have hcard := OrphanTxs.card_waiting_addUnchecked hstored (hkey ▸ hno.fresh)
    simp only [todo, List.length_append, List.length_singleton, hpool, hkey]
    show work.vWorkQueue.length + 1 + (work.orphans.waiting _).card ≤ _
    omega
  · have hnode := (CTxMemPool.acceptToMemoryPool_failsClean env tx true w e w₁ hrun).node
    cases e with
    | abort what => exact absurd h error_ne_ok
    | reject nDoS text =>
      dsimp only at h
      split at h
      · obtain ⟨rfl, rfl⟩ := pure_eq_ok.mp h
        exact ⟨rfl, by simp only [todo, hnode, Nat.le_refl]⟩
      · obtain ⟨rfl, rfl⟩ := pure_eq_ok.mp h
        exact ⟨rfl, by simp only [todo, hnode, Nat.le_refl]⟩

theorem tryOrphans_ok (hmatched : work.orphans.Matched env) {hashes : List Uint256}
    (hstored : ∀ hash ∈ hashes, ∃ tx, work.orphans.mapOrphanTransactions[hash]? = some tx)
    (h : hashes.foldlM (tryOrphan env) work w = .ok work' w') :
    work'.orphans = work.orphans ∧ work'.todo w' ≤ work.todo w := by
  induction hashes generalizing work w with
  | nil =>
    obtain ⟨rfl, rfl⟩ := pure_eq_ok.mp h
    exact ⟨rfl, Nat.le_refl _⟩
  | cons hash hashes ih =>
    rw [List.foldlM_cons] at h
    obtain ⟨work₁, w₁, hone, h⟩ := bind_eq_ok.mp h
    obtain ⟨tx, htx⟩ := hstored hash List.mem_cons_self
    obtain ⟨horphans, hle⟩ := tryOrphan_ok hmatched htx hone
    obtain ⟨horphans', hle'⟩ := ih (horphans ▸ hmatched)
      (fun a ha => horphans ▸ hstored a (List.mem_cons_of_mem hash ha)) h
    exact ⟨horphans'.trans horphans, hle'.trans hle⟩

/-- The orphans after a lookup of `hashPrev`. -/
def looked (orphans : OrphanTxs) (hashPrev : Uint256) : OrphanTxs :=
  { orphans with mapOrphanTransactionsByPrev :=
      (Map.subscript orphans.mapOrphanTransactionsByPrev hashPrev ∅).2 }

theorem looked_matched {orphans : OrphanTxs} (h : orphans.Matched env) (hashPrev : Uint256) :
    (looked orphans hashPrev).Matched env := by
  refine ⟨h.keyed, fun p a => ?_⟩
  rw [show (looked orphans hashPrev).Spends a p ↔ orphans.Spends a p from Iff.rfl, ← h.hashes]
  show a ∈ OrphanTxs.hashesOf (Map.subscript _ hashPrev ∅).2 p ↔ _
  by_cases heq : hashPrev = p
  · rw [heq, OrphanTxs.hashesOf, OrphanTxs.hashesOf, Map.subscript]
    cases hp : orphans.mapOrphanTransactionsByPrev[p]? with
    | none => simp
    | some s => simp [hp]
  · rw [OrphanTxs.hashesOf, OrphanTxs.getElem?_subscript_of_ne heq, OrphanTxs.hashesOf]

/-- A key that is there is looked up without an effect. -/
theorem looked_of_spends {orphans : OrphanTxs} (h : orphans.Matched env) {a hashPrev : Uint256}
    (hspends : orphans.Spends a hashPrev) : looked orphans hashPrev = orphans := by
  have hmem := (h.hashes hashPrev a).mpr hspends
  unfold looked
  cases hp : orphans.mapOrphanTransactionsByPrev[hashPrev]? with
  | none =>
    rw [OrphanTxs.hashesOf, hp] at hmem
    exact absurd hmem (Finset.notMem_empty a)
  | some s => rw [OrphanTxs.subscript_of_some hp]

theorem tryDependants_ok (hmatched : work.orphans.Matched env) {hashPrev : Uint256}
    {rest : List Uint256} (hqueue : work.vWorkQueue = hashPrev :: rest)
    (h : work.tryDependants env hashPrev rest w = .ok work' w') :
    work'.orphans = looked work.orphans hashPrev ∧ work'.todo w' + 1 ≤ work.todo w := by
  have hloop : ((Map.subscript work.orphans.mapOrphanTransactionsByPrev hashPrev ∅).1.sort
      (· ≤ ·)).foldlM (tryOrphan env)
        { work with orphans := looked work.orphans hashPrev, vWorkQueue := rest } w =
      .ok work' w' := h
  rw [OrphanTxs.subscript_byPrev] at hloop
  obtain ⟨horphans, hle⟩ := tryOrphans_ok (looked_matched hmatched hashPrev)
    (fun a ha => by
      obtain ⟨tx, htx, -⟩ := (hmatched.hashes hashPrev a).mp ((Finset.mem_sort _).mp ha)
      exact ⟨tx, htx⟩) hloop
  refine ⟨horphans, ?_⟩
  have htodo : work.todo w = todo { work with
      orphans := looked work.orphans hashPrev, vWorkQueue := rest } w + 1 := by
    simp only [todo, hqueue, List.length_cons]
    show _ = rest.length + (work.orphans.waiting _).card + 1
    omega
  omega

theorem processQueue_nil (fuel : Nat) (h : work.vWorkQueue = []) :
    processQueue env fuel work w = .ok work w := by
  cases fuel with
  | zero => rw [processQueue, h]; rfl
  | succ fuel => rw [processQueue, h]; rfl

theorem processQueue_cons {fuel : Nat} {hashPrev : Uint256} {rest : List Uint256}
    (h : work.vWorkQueue = hashPrev :: rest) : processQueue env (fuel + 1) work w =
      (work.tryDependants env hashPrev rest >>= processQueue env fuel) w := by
  rw [processQueue, h]

/-- More rounds than the bound change nothing: the queue comes to an end. -/
theorem processQueue_enough {fuel : Nat} (more : Nat) (hmatched : work.orphans.Matched env)
    (hfuel : work.todo w ≤ fuel) :
    processQueue env (fuel + more) work w = processQueue env fuel work w := by
  induction fuel generalizing work w with
  | zero =>
    have hnil : work.vWorkQueue = [] := List.length_eq_zero_iff.mp (by unfold todo at hfuel; omega)
    rw [processQueue_nil _ hnil, processQueue_nil _ hnil]
  | succ fuel ih =>
    cases hqueue : work.vWorkQueue with
    | nil => rw [processQueue_nil _ hqueue, processQueue_nil _ hqueue]
    | cons hashPrev rest =>
      rw [show fuel + 1 + more = fuel + more + 1 by omega, processQueue_cons hqueue,
        processQueue_cons hqueue, bind_run, bind_run]
      cases hrun : work.tryDependants env hashPrev rest w with
      | error e w₁ => rfl
      | ok work₁ w₁ =>
        obtain ⟨horphans, htodo⟩ := tryDependants_ok hmatched hqueue hrun
        exact ih (horphans ▸ looked_matched hmatched hashPrev) (by omega)

theorem processQueue_matched {fuel : Nat} (hmatched : work.orphans.Matched env)
    (h : processQueue env fuel work w = .ok work' w') : work'.orphans.Matched env := by
  induction fuel generalizing work w with
  | zero =>
    cases hqueue : work.vWorkQueue with
    | nil =>
      rw [processQueue_nil _ hqueue] at h
      obtain ⟨rfl, rfl⟩ := EStateM.Result.ok.inj h
      exact hmatched
    | cons hashPrev rest =>
      rw [processQueue, hqueue] at h
      exact absurd h error_ne_ok
  | succ fuel ih =>
    cases hqueue : work.vWorkQueue with
    | nil =>
      rw [processQueue_nil _ hqueue] at h
      obtain ⟨rfl, rfl⟩ := EStateM.Result.ok.inj h
      exact hmatched
    | cons hashPrev rest =>
      rw [processQueue_cons hqueue] at h
      obtain ⟨work₁, w₁, hrun, h⟩ := bind_eq_ok.mp h
      obtain ⟨horphans, -⟩ := tryDependants_ok hmatched hqueue hrun
      exact ih (horphans ▸ looked_matched hmatched hashPrev) h

/-- The rounds that the `tx` branch allows are enough. -/
theorem todo_message (orphans : OrphanTxs) (hash : Uint256) (w : World) :
    todo ⟨orphans, [hash], [hash]⟩ w ≤ orphans.mapOrphanTransactions.size + 1 := by
  have hcard := orphans.card_waiting_le w.node.mempool
  show 1 + (orphans.waiting _).card ≤ _
  omega

/-- Every hash that is looked up is one a stored orphan depends on. -/
def QueueMet (env : Env) : (fuel : Nat) → OrphanWork → World → Prop
  | 0, _, _ => True
  | fuel + 1, work, w => ∀ hashPrev rest, work.vWorkQueue = hashPrev :: rest →
    (∃ h, work.orphans.Spends h hashPrev) ∧ ∀ work' w',
      work.tryDependants env hashPrev rest w = .ok work' w' → QueueMet env fuel work' w'

theorem processQueue_orphans {fuel : Nat} (hmatched : work.orphans.Matched env)
    (hmet : QueueMet env fuel work w) (h : processQueue env fuel work w = .ok work' w') :
    work'.orphans = work.orphans := by
  induction fuel generalizing work w with
  | zero =>
    cases hqueue : work.vWorkQueue with
    | nil =>
      rw [processQueue_nil _ hqueue] at h
      obtain ⟨rfl, rfl⟩ := EStateM.Result.ok.inj h
      rfl
    | cons hashPrev rest =>
      rw [processQueue, hqueue] at h
      exact absurd h error_ne_ok
  | succ fuel ih =>
    cases hqueue : work.vWorkQueue with
    | nil =>
      rw [processQueue_nil _ hqueue] at h
      obtain ⟨rfl, rfl⟩ := EStateM.Result.ok.inj h
      rfl
    | cons hashPrev rest =>
      rw [processQueue_cons hqueue] at h
      obtain ⟨work₁, w₁, hrun, h⟩ := bind_eq_ok.mp h
      obtain ⟨⟨a, hspends⟩, hnext⟩ := hmet hashPrev rest hqueue
      obtain ⟨horphans, -⟩ := tryDependants_ok hmatched hqueue hrun
      rw [looked_of_spends hmatched hspends] at horphans
      exact (ih (horphans ▸ hmatched) (hnext work₁ w₁ hrun) h).trans horphans

end OrphanWork

/-! ## Messages -/

/-- The condition on a `tx` message: if the transaction is accepted, a stored orphan depends on it,
and one on every orphan that is accepted after it. -/
def TxMessageMet (env : Env) (orphans : OrphanTxs) (tx : CTransaction) (w : World) : Prop :=
  ∀ w', tx.acceptToMemoryPool env true w = .ok () w' →
    OrphanWork.QueueMet env (orphans.mapOrphanTransactions.size + 1)
      ⟨orphans, [tx.getHash env], [tx.getHash env]⟩ w'

/-- The orphans after any sequence of `tx` messages that all meet `ok`, whatever happens to the
node in between. -/
inductive OrphanRuns (env : Env) (ok : OrphanTxs → CTransaction → World → Prop) :
    OrphanTxs → Prop where
  | start : OrphanRuns env ok ⟨∅, ∅⟩
  | message {orphans orphans' : OrphanTxs} {tx : CTransaction} {random : Nat → Uint256}
      {w w' : World} (h : OrphanRuns env ok orphans) (hok : ok orphans tx w)
      (hrun : processTxMessage env random orphans tx w = .ok orphans' w') :
      OrphanRuns env ok orphans'

namespace OrphanTxs

theorem processTxMessage_indexed {env : Env} {orphans orphans' : OrphanTxs} {tx : CTransaction}
    {random : Nat → Uint256} {w w' : World} (hindexed : orphans.Indexed env)
    (hsize : orphans.mapOrphanTransactions.size ≤ maxOrphanTransactions)
    (hmet : TxMessageMet env orphans tx w)
    (h : processTxMessage env random orphans tx w = .ok orphans' w') :
    orphans'.Indexed env ∧ orphans'.mapOrphanTransactions.size ≤ maxOrphanTransactions := by
  unfold processTxMessage at h
  obtain ⟨r, w₁, hattempt, h⟩ := bind_eq_ok.mp h
  rcases attempt_eq_ok.mp hattempt with ⟨u, rfl, hrun⟩ | ⟨e, rfl, hrun⟩
  · obtain ⟨work, w₂, hqueue, h⟩ := bind_eq_ok.mp h
    obtain ⟨rfl, rfl⟩ := pure_eq_ok.mp h
    rw [OrphanWork.processQueue_orphans hindexed.toMatched (hmet w₁ hrun) hqueue]
    obtain ⟨hindexed', hsize'⟩ := foldl_eraseOrphanTx_indexed hindexed work.vEraseQueue
    exact ⟨hindexed', hsize'.trans hsize⟩
  · cases e with
    | abort what => exact absurd h error_ne_ok
    | reject nDoS text =>
      dsimp only at h
      split at h
      · obtain ⟨rfl, rfl⟩ := pure_eq_ok.mp h
        exact limitOrphanTxSize_indexed (addOrphanTx_indexed hindexed tx) _ random
      · obtain ⟨rfl, rfl⟩ := pure_eq_ok.mp h
        exact ⟨hindexed, hsize⟩

end OrphanTxs

theorem OrphanTxs.processTxMessage_matched {env : Env} {orphans orphans' : OrphanTxs}
    {tx : CTransaction} {random : Nat → Uint256} {w w' : World} (hmatched : orphans.Matched env)
    (h : processTxMessage env random orphans tx w = .ok orphans' w') : orphans'.Matched env := by
  unfold processTxMessage at h
  obtain ⟨r, w₁, -, h⟩ := bind_eq_ok.mp h
  cases r with
  | ok u =>
    obtain ⟨work, w₂, hqueue, h⟩ := bind_eq_ok.mp h
    obtain ⟨rfl, rfl⟩ := pure_eq_ok.mp h
    exact foldl_eraseOrphanTx_matched (OrphanWork.processQueue_matched hmatched hqueue) _
  | error e =>
    cases e with
    | abort what => exact absurd h error_ne_ok
    | reject nDoS text =>
      dsimp only at h
      split at h
      · obtain ⟨rfl, rfl⟩ := pure_eq_ok.mp h
        exact limitLoop_matched _ _ random 0 (addOrphanTx_matched hmatched tx)
      · obtain ⟨rfl, rfl⟩ := pure_eq_ok.mp h
        exact hmatched

/-- The second map leads to the orphans of the first one in every run. -/
theorem OrphanRuns.matched {env : Env} {ok : OrphanTxs → CTransaction → World → Prop}
    {orphans : OrphanTxs} (h : OrphanRuns env ok orphans) : orphans.Matched env := by
  induction h with
  | start => exact (OrphanTxs.empty_indexed env).toMatched
  | message _ _ hrun ih => exact OrphanTxs.processTxMessage_matched ih hrun

theorem OrphanRuns.indexed {env : Env} {orphans : OrphanTxs}
    (h : OrphanRuns env (TxMessageMet env) orphans) : orphans.Indexed env ∧
      orphans.mapOrphanTransactions.size ≤ maxOrphanTransactions := by
  induction h with
  | start => exact ⟨OrphanTxs.empty_indexed env, by simp⟩
  | message _ hok hrun ih => exact OrphanTxs.processTxMessage_indexed ih.1 ih.2 hok hrun

/-- In every run whose messages all meet the condition, the index has a key exactly for what a
stored orphan spends an output of, its value is the non-empty set of those orphans, and no more
orphans are stored than may be. -/
theorem orphanTx_indexed {env : Env} {orphans : OrphanTxs}
    (h : OrphanRuns env (TxMessageMet env) orphans) :
    (∀ p, orphans.mapOrphanTransactionsByPrev.contains p = true ↔ ∃ a, orphans.Spends a p) ∧
    (∀ (p : Uint256) (s : Finset Uint256), orphans.mapOrphanTransactionsByPrev[p]? = some s →
      s.Nonempty ∧ ∀ a, a ∈ s ↔ orphans.Spends a p) ∧
    orphans.mapOrphanTransactions.size ≤ maxOrphanTransactions := by
  obtain ⟨hindexed, hsize⟩ := h.indexed
  have hvalue : ∀ (p : Uint256) (s : Finset Uint256),
      orphans.mapOrphanTransactionsByPrev[p]? = some s →
        s.Nonempty ∧ ∀ a, a ∈ s ↔ orphans.Spends a p := by
    intro p s hs
    refine ⟨Finset.nonempty_iff_ne_empty.mpr fun hempty => ?_, fun a => ?_⟩
    · exact hindexed.nonempty p (hempty ▸ hs)
    · rw [← hindexed.hashes, OrphanTxs.hashesOf, hs, Option.getD_some]
  refine ⟨fun p => ⟨fun hp => ?_, ?_⟩, hvalue, hsize⟩
  · obtain ⟨s, hs⟩ := (Map.contains_iff _ _).mp hp
    obtain ⟨⟨a, ha⟩, hspends⟩ := hvalue p s hs
    exact ⟨a, (hspends a).mp ha⟩
  · rintro ⟨a, hspends⟩
    have hmem := (hindexed.hashes p a).mpr hspends
    rw [Map.contains_iff]
    cases hp : orphans.mapOrphanTransactionsByPrev[p]? with
    | some s => exact ⟨s, rfl⟩
    | none =>
      rw [OrphanTxs.hashesOf, hp] at hmem
      exact absurd hmem (Finset.notMem_empty a)

/-! ## A transaction nobody depends on -/

def testNet : Env := { mainNet with fTestNet := true }

/-- A transaction of the pool, and one that spends its output. -/
def pooledTx : CTransaction :=
  ⟨1, 1600000000, [⟨⟨5, 0⟩, [], uint32Max⟩], [⟨10 * coin, [0x51]⟩], 0⟩

def spendingTx : CTransaction :=
  ⟨1, 1600000000, [⟨⟨pooledTx.getHash testNet, 0⟩, [], uint32Max⟩], [⟨coin, [0x51]⟩], 0⟩

def idleWorld (pool : CTxMemPool) : World where
  node := { Node.initial with mempool := pool }
  sys := ⟨1700000000, fun _ => true, true, false, false⟩
  log := []

/-- A message whose transaction has no inputs yet: it is stored as an orphan. -/
theorem orphanTx_indexed_stored : ∃ orphans w',
    processTxMessage testNet (fun _ => 0) ⟨∅, ∅⟩ spendingTx (idleWorld .clear) = .ok orphans w' ∧
      orphans.mapOrphanTransactionsByPrev.contains (pooledTx.getHash testNet) = true ∧
      ∃ a, orphans.Spends a (pooledTx.getHash testNet) := by
  have hstored : succeeds (fun (orphans : OrphanTxs) _ =>
      orphans.mapOrphanTransactionsByPrev.contains (pooledTx.getHash testNet))
        (processTxMessage testNet (fun _ => 0) ⟨∅, ∅⟩ spendingTx (idleWorld .clear)) = true := by
    decide +kernel
  have hrefused : succeeds (fun _ _ => true)
      (spendingTx.acceptToMemoryPool testNet true (idleWorld .clear)) = false := by decide +kernel
  have hmet : TxMessageMet testNet ⟨∅, ∅⟩ spendingTx (idleWorld .clear) := by
    intro w' haccept
    rw [succeeds_iff.mpr ⟨(), w', haccept, rfl⟩] at hrefused
    exact absurd hrefused (by simp)
  obtain ⟨orphans, w', hrun, hkey⟩ := succeeds_iff.mp hstored
  exact ⟨orphans, w', hrun, hkey, ((orphanTx_indexed (.message .start hmet hrun)).1 _).mp hkey⟩

/-- Its hash stays in the index when it is accepted and no orphan depends on it. -/
theorem not_orphanTx_indexed : ¬ ∀ env orphans, OrphanRuns env (fun _ _ _ => True) orphans →
    ∀ p, orphans.mapOrphanTransactionsByPrev.contains p = true → ∃ a, orphans.Spends a p := by
  intro hindexed
  have hleft : succeeds (fun (orphans : OrphanTxs) _ =>
      orphans.mapOrphanTransactionsByPrev.contains (spendingTx.getHash testNet) &&
        orphans.mapOrphanTransactions.isEmpty)
      (processTxMessage testNet (fun _ => 0) ⟨∅, ∅⟩ spendingTx
        (idleWorld (CTxMemPool.clear.addUnchecked (pooledTx.getHash testNet) pooledTx))) = true := by
    decide +kernel
  obtain ⟨orphans, w', hrun, hleft⟩ := succeeds_iff.mp hleft
  obtain ⟨hkey, hempty⟩ := Bool.and_eq_true_iff.mp hleft
  obtain ⟨a, tx, htx, -⟩ := hindexed testNet orphans (.message .start trivial hrun) _ hkey
  rw [Std.ExtTreeMap.isEmpty_iff.mp hempty] at htx
  exact absurd htx (by simp)

end NoLimitCoin
