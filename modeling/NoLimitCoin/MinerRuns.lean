import NoLimitCoin.Fetched
import NoLimitCoin.Miner

/-!
# What a new block consists of

The pool, the list of waiting transactions and the heap hold every transaction once, and
whatever gets into the block has passed the checks of `CreateNewBlock`.

Results:
1. `gather_all`: the transactions collected from the pool, and the records of those that wait.
2. `tryTx_ok`: what a turn of the loop over the heap can do.
3. `collect_all`: the transactions of the block.
-/

namespace NoLimitCoin

open Prog NodeM

namespace Miner

/-! ## `CreateNewBlock` reads only -/

section

variable (env : Env) (options : Options) (priorities : Priorities) (fProofOfStake : Bool)
  (pindexPrev : Uint256) (nTimeCoinBase : Nat) (mapDependers : Map Uint256 (List Nat))

theorem reads_gatherInputs (tx : CTransaction) (s : Gathered) (porphan : Option Nat)
    (vin : List CTxIn) : Reads (gatherInputs tx s porphan vin) := by
  induction vin generalizing s porphan with
  | nil => exact Reads.pure _
  | cons txin vin ih =>
    refine Keeps.bind Reads.getNode fun node => Keeps.bind (Reads.readTxFromDisk _ _) fun found => ?_
    cases found with
    | some _ => exact ih _ _
    | none =>
      dsimp only
      cases node.mempool.mapTx[txin.prevout.hash]? with
      | none => exact Reads.pure _
      | some txPrev => exact Keeps.bind (Reads.require _ _) fun _ => ih _ _

theorem reads_gatherTx (s : Gathered) (tx : CTransaction) : Reads (gatherTx s tx) := by
  refine Keeps.bind Reads.getNode fun _ => Keeps.bind Reads.getSys fun _ =>
    Keeps.ite (Reads.pure _) (Keeps.bind (reads_gatherInputs _ _ _ _) fun found => ?_)
  exact Keeps.ite (Reads.pure _) (Keeps.bind (Keeps.fromExcept _) fun _ => Reads.pure _)

theorem reads_gather : Reads gather :=
  Keeps.bind Reads.getNode fun _ => Keeps.foldlM reads_gatherTx _ _

theorem reads_wakeDepender (hash : Uint256) (s : Assembly) (id : Nat) :
    Reads (wakeDepender hash s id) := by
  unfold wakeDepender
  cases s.vOrphan[id]? with
  | none => exact Reads.throw _
  | some orphan => exact Keeps.ite (Reads.pure _) (Reads.pure _)

theorem reads_skipUnless {α : Type} (s : Assembly) (result : Except Exit α)
    {f : α → NodeM Assembly} (hf : ∀ a, Reads (f a)) : Reads (skipUnless s result f) := by
  rcases result with e | a
  · cases e with
    | reject nDoS text => exact Reads.pure _
    | abort what => exact Reads.throw _
  · exact hf a

theorem reads_addTx (s : Assembly) (tx : CTransaction) (mapTestPoolTmp : Map Uint256 CTxIndex)
    (nTxSigOps : Nat) (nTxFees : Int) :
    Reads (addTx env mapDependers s tx mapTestPoolTmp nTxSigOps nTxFees) :=
  Keeps.bind (Keeps.fromExcept _) fun _ => Keeps.foldlM (reads_wakeDepender _) _ _

theorem reads_tryTx (s : Assembly) (tx : CTransaction) : Reads (tryTx env options priorities
    fProofOfStake pindexPrev nTimeCoinBase mapDependers s tx) := by
  refine Keeps.bind Reads.getSys fun _ => Keeps.ite (Reads.pure _) ?_
  refine Keeps.bind (Keeps.attempt (Reads.fetchInputs _ _ _ _)) fun _ =>
    reads_skipUnless _ _ fun _ => Keeps.bind Reads.getNode fun _ =>
      Keeps.bind (Keeps.fromExcept _) fun _ => Keeps.ite (Reads.pure _) ?_
  exact Keeps.bind (Keeps.fromExcept _) fun _ => Keeps.ite (Reads.pure _)
    (reads_skipUnless _ _ fun _ => reads_addTx _ _ _ _ _ _ _)

end

/-! ## Collecting -/

namespace Gathered

/-- All transactions that have been collected have a property. -/
structure All (p : CTransaction → Prop) (g : Gathered) : Prop where
  heap : ∀ tx ∈ g.vecPriority, p tx
  records : ∀ (id : Nat) (orphan : COrphan), g.vOrphan[id]? = some orphan → p orphan.ptx

/-- Every transaction that has been collected is in the heap once, or has one record. -/
structure Inv (done : List CTransaction) (g : Gathered) : Prop where
  all : All (· ∈ done) g
  records : ∀ (id : Nat) (orphan : COrphan), g.vOrphan[id]? = some orphan → id < g.nOrphan ∧
    orphan.ptx ∉ g.vecPriority
  nodup : g.vecPriority.Nodup
  single : ∀ (id id' : Nat) (orphan orphan' : COrphan), g.vOrphan[id]? = some orphan →
    g.vOrphan[id']? = some orphan' → orphan.ptx = orphan'.ptx → id = id'

theorem All.start (p : CTransaction → Prop) : All p Gathered.start where
  heap _ h := absurd h List.not_mem_nil
  records _ _ h := absurd h (by simp [Gathered.start])

theorem Inv.start : Inv [] Gathered.start where
  all := .start _
  records _ _ h := absurd h (by simp [Gathered.start])
  nodup := List.nodup_nil
  single _ _ _ _ h := absurd h (by simp [Gathered.start])

/-- In the loop over the inputs of a transaction, at most its own record has been made. -/
structure AtInput (tx : CTransaction) (g s : Gathered) (porphan : Option Nat) : Prop where
  heap : s.vecPriority = g.vecPriority
  others : ∀ id, some id ≠ porphan → s.vOrphan[id]? = g.vOrphan[id]?
  own : ∀ id, porphan = some id → id = g.nOrphan ∧ ∃ orphan, s.vOrphan[id]? = some orphan ∧
    orphan.ptx = tx
  count : s.nOrphan = if porphan.isSome then g.nOrphan + 1 else g.nOrphan

theorem AtInput.start (tx : CTransaction) (g : Gathered) : AtInput tx g g none where
  heap := rfl
  others _ _ := rfl
  own _ h := absurd h (by simp)
  count := rfl

/-- After the record has been made, or found. -/
theorem AtInput.orphanFor {tx : CTransaction} {g s : Gathered} {porphan : Option Nat}
    (h : AtInput tx g s porphan) :
    AtInput tx g (s.orphanFor porphan tx).1 (some (s.orphanFor porphan tx).2) := by
  cases porphan with
  | none =>
    have hcount : s.nOrphan = g.nOrphan := h.count
    refine ⟨h.heap, fun id hne => ?_, fun id hid => ?_, congrArg (· + 1) hcount⟩
    · refine (Map.getElem?_insert_of_ne _ _ fun heq => hne (congrArg some heq.symm)).trans ?_
      exact h.others id (by simp)
    · obtain rfl := Option.some.inj hid
      refine ⟨hcount, ⟨tx, ∅⟩, ?_, rfl⟩
      exact (Map.getElem?_insert _ _ _ _).trans (if_pos rfl)
  | some id => exact h

/-- An input that is an output of the pool goes into the record. -/
theorem AtInput.dependOn {tx : CTransaction} {g s : Gathered} {id : Nat}
    (h : AtInput tx g s (some id)) (hash : Uint256) :
    AtInput tx g (s.dependOn id tx hash) (some id) := by
  obtain ⟨hid, orphan, horphan, htx⟩ := h.own id rfl
  refine ⟨h.heap, fun id' hne => ?_, fun id' hid' => ?_, h.count⟩
  · refine (Map.getElem?_insert_of_ne _ _ fun heq => hne (congrArg some heq.symm)).trans ?_
    exact h.others id' hne
  · obtain rfl := Option.some.inj hid'
    refine ⟨hid, _, (Map.getElem?_insert _ _ _ _).trans (if_pos rfl), ?_⟩
    rw [horphan]
    exact htx

/-- A transaction with a missing input leaves no record. -/
structure Dropped (g s : Gathered) : Prop where
  heap : s.vecPriority = g.vecPriority
  others : ∀ id, id ≠ g.nOrphan → s.vOrphan[id]? = g.vOrphan[id]?
  own : ∀ (orphan : COrphan), s.vOrphan[g.nOrphan]? = some orphan → s.vOrphan = g.vOrphan
  count : g.nOrphan ≤ s.nOrphan

theorem AtInput.popOrphan {tx : CTransaction} {g s : Gathered} {porphan : Option Nat}
    (h : AtInput tx g s porphan) : Dropped g (s.popOrphan porphan) := by
  cases porphan with
  | none =>
    refine ⟨h.heap, fun id _ => h.others id (by simp), fun _ _ => ?_, h.count.ge⟩
    exact Map.ext fun id => h.others id (by simp)
  | some id =>
    obtain ⟨rfl, -⟩ := h.own id rfl
    refine ⟨h.heap, fun id' hne => ?_, fun orphan horphan => ?_, ?_⟩
    · refine (Map.getElem?_erase _ _ _).trans ((if_neg (Ne.symm hne)).trans ?_)
      exact h.others id' fun heq => hne (Option.some.inj heq)
    · have hnone := (Map.getElem?_erase s.vOrphan g.nOrphan g.nOrphan).trans (if_pos rfl)
      exact absurd (hnone.symm.trans horphan) (by simp)
    · exact h.count.ge.trans' (Nat.le_succ _)

end Gathered

theorem gatherInputs_ok {tx : CTransaction} {g s s' : Gathered} {porphan porphan' : Option Nat}
    {vin : List CTxIn} {fMissingInputs : Bool} {w w' : World}
    (h : gatherInputs tx s porphan vin w = .ok (s', porphan', fMissingInputs) w')
    (hat : Gathered.AtInput tx g s porphan) :
    if fMissingInputs then Gathered.Dropped g s' else Gathered.AtInput tx g s' porphan' := by
  induction vin generalizing s porphan w with
  | nil =>
    obtain ⟨heq, -⟩ := pure_eq_ok.mp h
    simp only [Prod.mk.injEq] at heq
    obtain ⟨rfl, rfl, rfl⟩ := heq
    exact hat
  | cons txin vin ih =>
    rw [gatherInputs, getNode_bind] at h
    obtain ⟨found, w₁, -, h⟩ := bind_eq_ok.mp h
    cases found with
    | some _ => exact ih h hat
    | none =>
      dsimp only at h
      cases hpool : w.node.mempool.mapTx[txin.prevout.hash]? with
      | none =>
        rw [hpool] at h
        obtain ⟨heq, -⟩ := pure_eq_ok.mp h
        simp only [Prod.mk.injEq] at heq
        obtain ⟨rfl, rfl, rfl⟩ := heq
        exact hat.popOrphan
      | some txPrev =>
        rw [hpool] at h
        obtain ⟨-, h⟩ := require_bind_eq_ok.mp h
        exact ih h (hat.orphanFor.dependOn _)

theorem Gathered.Dropped.records {g s : Gathered} (h : Gathered.Dropped g s) {id : Nat}
    {orphan : COrphan} (horphan : s.vOrphan[id]? = some orphan) : g.vOrphan[id]? = some orphan := by
  by_cases hid : id = g.nOrphan
  · rw [← h.own orphan (hid ▸ horphan), horphan]
  · rw [← h.others id hid, horphan]

theorem Gathered.AtInput.records {tx : CTransaction} {g s : Gathered} {porphan : Option Nat}
    (h : Gathered.AtInput tx g s porphan) {id : Nat} {orphan : COrphan}
    (horphan : s.vOrphan[id]? = some orphan) :
    (porphan = some g.nOrphan ∧ id = g.nOrphan ∧ orphan.ptx = tx) ∨
      g.vOrphan[id]? = some orphan := by
  by_cases hid : some id = porphan
  · obtain ⟨rfl, own, hown, htx⟩ := h.own id hid.symm
    obtain rfl := Option.some.inj (horphan.symm.trans hown)
    exact .inl ⟨hid.symm, rfl, htx⟩
  · exact .inr ((h.others id hid).symm.trans horphan)

/-- What a turn of the loop over the pool leaves: nothing, a record or an entry of the heap. -/
theorem gatherTx_ok {g s : Gathered} {tx : CTransaction} {w w' : World}
    (h : gatherTx g tx w = .ok s w') : s = g ∨ Gathered.Dropped g s ∨
      (tx.isCoinBase = false ∧ tx.isCoinStake = false ∧
        (Gathered.AtInput tx g s (some g.nOrphan) ∨ ∃ s₁, Gathered.AtInput tx g s₁ none ∧
          s = { s₁ with vecPriority := s₁.vecPriority ++ [tx] })) := by
  rw [gatherTx, getNode_bind, getSys_bind] at h
  split at h
  · exact .inl (pure_eq_ok.mp h).1
  next hplain =>
  simp only [Bool.or_eq_true, Bool.not_eq_true', not_or, Bool.not_eq_true] at hplain
  obtain ⟨⟨s₁, porphan, fMissingInputs⟩, w₁, hinputs, h⟩ := bind_eq_ok.mp h
  have hat := gatherInputs_ok hinputs (.start tx g)
  cases fMissingInputs with
  | true =>
    obtain ⟨rfl, -⟩ := pure_eq_ok.mp h
    exact .inr (.inl hat)
  | false =>
    obtain ⟨_, w₂, -, h⟩ := bind_eq_ok.mp h
    obtain ⟨rfl, -⟩ := pure_eq_ok.mp h
    refine .inr (.inr ⟨hplain.1.1, hplain.1.2, ?_⟩)
    cases porphan with
    | none => exact .inr ⟨s₁, hat, rfl⟩
    | some id =>
      obtain ⟨rfl, -⟩ := hat.own id rfl
      exact .inl hat

theorem Gathered.All.gatherTx {p : CTransaction → Prop} {g s : Gathered} {tx : CTransaction}
    {w w' : World} (h : Miner.gatherTx g tx w = .ok s w') (hall : Gathered.All p g)
    (htx : tx.isCoinBase = false → tx.isCoinStake = false → p tx) : Gathered.All p s := by
  rcases gatherTx_ok h with rfl | hdropped | ⟨hbase, hstake, hat | ⟨s₁, hat, rfl⟩⟩
  · exact hall
  · exact ⟨fun tx' htx' => hall.heap tx' (hdropped.heap ▸ htx'),
      fun id orphan horphan => hall.records id orphan (hdropped.records horphan)⟩
  · refine ⟨fun tx' htx' => hall.heap tx' (hat.heap ▸ htx'), fun id orphan horphan => ?_⟩
    rcases hat.records horphan with ⟨-, -, rfl⟩ | hold
    · exact htx hbase hstake
    · exact hall.records id orphan hold
  · refine ⟨fun tx' htx' => ?_, fun id orphan horphan => ?_⟩
    · rcases List.mem_append.mp htx' with hmem | hmem
      · exact hall.heap tx' (hat.heap ▸ hmem)
      · rw [List.mem_singleton.mp hmem]
        exact htx hbase hstake
    · rcases hat.records horphan with ⟨hnone, -⟩ | hold
      · exact absurd hnone (by simp)
      · exact hall.records id orphan hold

theorem Gathered.Inv.gatherTx {done : List CTransaction} {g s : Gathered} {tx : CTransaction}
    {w w' : World} (h : Miner.gatherTx g tx w = .ok s w') (hinv : Gathered.Inv done g)
    (hfresh : tx ∉ done) : Gathered.Inv (tx :: done) s := by
  have hold : Gathered.All (· ∈ tx :: done) g :=
    ⟨fun tx' htx' => List.mem_cons_of_mem tx (hinv.all.heap tx' htx'),
      fun id orphan horphan => List.mem_cons_of_mem tx (hinv.all.records id orphan horphan)⟩
  have hall := hold.gatherTx h fun _ _ => List.mem_cons_self
  have hheap : tx ∉ g.vecPriority := fun hmem => hfresh (hinv.all.heap tx hmem)
  have hown : ∀ (id : Nat) (orphan : COrphan), g.vOrphan[id]? = some orphan → orphan.ptx ≠ tx :=
    fun id orphan horphan heq => hfresh (heq ▸ hinv.all.records id orphan horphan)
  rcases gatherTx_ok h with rfl | hdropped | ⟨-, -, hat | ⟨s₁, hat, rfl⟩⟩
  · exact ⟨hall, hinv.records, hinv.nodup, hinv.single⟩
  · refine ⟨hall, fun id orphan horphan => ?_, hdropped.heap ▸ hinv.nodup, ?_⟩
    · obtain ⟨hlt, hout⟩ := hinv.records id orphan (hdropped.records horphan)
      exact ⟨hlt.trans_le hdropped.count, hdropped.heap ▸ hout⟩
    · intro id id' o o' ho ho'
      exact hinv.single id id' o o' (hdropped.records ho) (hdropped.records ho')
  · have hcount : s.nOrphan = g.nOrphan + 1 := hat.count
    refine ⟨hall, fun id orphan horphan => ?_, hat.heap ▸ hinv.nodup, ?_⟩
    · rw [hcount, hat.heap]
      rcases hat.records horphan with ⟨-, rfl, rfl⟩ | hrecord
      · exact ⟨Nat.lt_succ_self _, hheap⟩
      · exact (hinv.records id orphan hrecord).imp_left Nat.lt_succ_of_lt
    · intro id id' o o' ho ho' heq
      rcases hat.records ho with ⟨-, rfl, hptx⟩ | hrecord
      · rcases hat.records ho' with ⟨-, rfl, -⟩ | hrecord'
        · rfl
        · exact absurd (heq.symm.trans hptx) (hown id' o' hrecord')
      · rcases hat.records ho' with ⟨-, rfl, hptx⟩ | hrecord'
        · exact absurd (heq.trans hptx) (hown id o hrecord)
        · exact hinv.single id id' o o' hrecord hrecord' heq
  · have hrecords : ∀ {id : Nat} {orphan : COrphan}, s₁.vOrphan[id]? = some orphan →
        g.vOrphan[id]? = some orphan := by
      intro id orphan horphan
      rcases hat.records horphan with ⟨hnone, -⟩ | hrecord
      · exact absurd hnone (by simp)
      · exact hrecord
    have hcount : s₁.nOrphan = g.nOrphan := hat.count
    refine ⟨hall, fun id orphan horphan => ?_, ?_, ?_⟩
    · obtain ⟨hlt, hout⟩ := hinv.records id orphan (hrecords horphan)
      refine ⟨hcount ▸ hlt, fun hmem => ?_⟩
      rcases List.mem_append.mp hmem with hmem | hmem
      · exact hout (hat.heap ▸ hmem)
      · exact hown id orphan (hrecords horphan) (List.mem_singleton.mp hmem)
    · show (s₁.vecPriority ++ [tx]).Nodup
      rw [hat.heap, ← List.concat_eq_append]
      exact (List.nodup_concat _ _).mpr ⟨hheap, hinv.nodup⟩
    · intro id id' o o' ho ho'
      exact hinv.single id id' o o' (hrecords ho) (hrecords ho')

/-- The transactions of the pool, in the order of their hashes. -/
def poolTxs (node : Node) : List CTransaction := node.mempool.mapTx.toList.map Prod.snd

theorem gatherLoop_all {p : CTransaction → Prop} {txs : List CTransaction} {g s : Gathered}
    {w w' : World} (h : txs.foldlM gatherTx g w = .ok s w') (hall : Gathered.All p g)
    (htxs : ∀ tx ∈ txs, tx.isCoinBase = false → tx.isCoinStake = false → p tx) :
    Gathered.All p s := by
  induction txs generalizing g w with
  | nil =>
    obtain ⟨rfl, -⟩ := pure_eq_ok.mp h
    exact hall
  | cons tx txs ih =>
    rw [List.foldlM_cons] at h
    obtain ⟨g₁, w₁, hone, h⟩ := bind_eq_ok.mp h
    obtain ⟨htx, hrest⟩ := List.forall_mem_cons.mp htxs
    exact ih h (hall.gatherTx hone htx) hrest

theorem gatherLoop_inv {done txs : List CTransaction} {g s : Gathered} {w w' : World}
    (h : txs.foldlM gatherTx g w = .ok s w') (hinv : Gathered.Inv done g)
    (hnodup : (txs.reverse ++ done).Nodup) : Gathered.Inv (txs.reverse ++ done) s := by
  induction txs generalizing done g w with
  | nil =>
    obtain ⟨rfl, -⟩ := pure_eq_ok.mp h
    exact hinv
  | cons tx txs ih =>
    rw [List.foldlM_cons] at h
    obtain ⟨g₁, w₁, hone, h⟩ := bind_eq_ok.mp h
    rw [List.reverse_cons, List.append_assoc, List.singleton_append] at hnodup ⊢
    have hfresh := (List.nodup_cons.mp (List.nodup_append.mp hnodup).2.1).1
    exact ih h (hinv.gatherTx hone hfresh) hnodup

/-- What `CreateNewBlock` collects from the pool. -/
theorem gather_all {g : Gathered} {w w' : World} (h : gather w = .ok g w') :
    Gathered.All (fun tx => tx ∈ poolTxs w.node ∧ tx.isCoinBase = false ∧ tx.isCoinStake = false)
      g := by
  rw [gather, getNode_bind] at h
  exact gatherLoop_all h (.start _) fun tx htx hbase hstake => ⟨htx, hbase, hstake⟩

/-! ## The loop over the heap -/

/-- Only the records and the heap have changed. -/
def Woken (s s' : Assembly) : Prop :=
  s' = { s with vOrphan := s'.vOrphan, vecPriority := s'.vecPriority }

theorem Woken.refl (s : Assembly) : Woken s s := rfl

theorem Woken.trans {s s' s'' : Assembly} (h : Woken s s') (h' : Woken s' s'') : Woken s s'' := by
  rw [Woken, h', h]

/-- All transactions that are waiting or in the heap have a property. -/
structure Assembly.All (p : CTransaction → Prop) (s : Assembly) : Prop where
  heap : ∀ tx ∈ s.vecPriority, p tx
  records : ∀ (id : Nat) (orphan : COrphan), s.vOrphan[id]? = some orphan → p orphan.ptx

theorem wakeDepender_ok {hash : Uint256} {s s' : Assembly} {id : Nat} {w w' : World}
    (h : wakeDepender hash s id w = .ok s' w') : w' = w ∧ ∃ orphan, s.vOrphan[id]? = some orphan ∧
      (s' = s ∨ (orphan.setDependsOn ≠ ∅ ∧ s' = { s with
        vOrphan := s.vOrphan.insert id { orphan with
          setDependsOn := orphan.setDependsOn.erase hash }
        vecPriority := s.vecPriority ++
          if orphan.setDependsOn.erase hash = ∅ then [orphan.ptx] else [] })) := by
  unfold wakeDepender at h
  cases horphan : s.vOrphan[id]? with
  | none =>
    rw [horphan] at h
    exact absurd h nofun
  | some orphan =>
    rw [horphan] at h
    dsimp only at h
    split at h
    · obtain ⟨rfl, rfl⟩ := pure_eq_ok.mp h
      exact ⟨rfl, orphan, rfl, .inl rfl⟩
    next hdepends =>
    obtain ⟨rfl, rfl⟩ := pure_eq_ok.mp h
    refine ⟨rfl, orphan, rfl, .inr ⟨hdepends, ?_⟩⟩
    split
    · rfl
    · rw [List.append_nil]

theorem Assembly.All.wakeDepender {p : CTransaction → Prop} {hash : Uint256} {s s' : Assembly}
    {id : Nat} {w w' : World} (h : Miner.wakeDepender hash s id w = .ok s' w')
    (hall : Assembly.All p s) : Assembly.All p s' ∧ Woken s s' := by
  obtain ⟨-, orphan, horphan, rfl | ⟨-, rfl⟩⟩ := wakeDepender_ok h
  · exact ⟨hall, .refl _⟩
  · have hptx := hall.records id orphan horphan
    refine ⟨⟨fun tx htx => ?_, fun id' o ho => ?_⟩, rfl⟩
    · rcases List.mem_append.mp htx with hmem | hmem
      · exact hall.heap tx hmem
      · split at hmem
        · exact List.mem_singleton.mp hmem ▸ hptx
        · exact absurd hmem List.not_mem_nil
    · have ho' := (Map.getElem?_insert _ _ _ _).symm.trans ho
      split at ho'
      · exact Option.some.inj ho' ▸ hptx
      · exact hall.records id' o ho'

theorem wakeLoop_ok {p : CTransaction → Prop} {hash : Uint256} {ids : List Nat} {s s' : Assembly}
    {w w' : World} (h : ids.foldlM (wakeDepender hash) s w = .ok s' w') (hall : s.All p) :
    s'.All p ∧ Woken s s' ∧ w' = w := by
  induction ids generalizing s w with
  | nil =>
    obtain ⟨rfl, rfl⟩ := pure_eq_ok.mp h
    exact ⟨hall, .refl _, rfl⟩
  | cons id ids ih =>
    rw [List.foldlM_cons] at h
    obtain ⟨s₁, w₁, hone, hrest⟩ := bind_eq_ok.mp h
    obtain ⟨hall₁, hwoken⟩ := hall.wakeDepender hone
    obtain ⟨hall', hwoken', hw⟩ := ih hrest hall₁
    exact ⟨hall', hwoken.trans hwoken', hw.trans (wakeDepender_ok hone).1⟩

section

variable {env : Env} {options : Options} {priorities : Priorities} {fProofOfStake : Bool}
  {pindexPrev : Uint256} {nTimeCoinBase : Nat} {mapDependers : Map Uint256 (List Nat)}

/-- A transaction that passes every check of the loop, and what they have found. -/
structure Passes (env : Env) (options : Options) (priorities : Priorities) (fProofOfStake : Bool)
    (pindexPrev : Uint256) (nTimeCoinBase : Nat) (w : World) (s : Assembly) (tx : CTransaction)
    (inputs : MapPrevTx) (mapTestPoolTmp : Map Uint256 CTxIndex) (nTxSigOps : Nat)
    (nTxFees : Int) : Prop where
  early : skipsEarly options priorities fProofOfStake nTimeCoinBase w.sys.adjustedTime s tx = false
  fetched : ∃ w₁, tx.fetchInputs s.mapTestPool false true w = .ok inputs w₁
  fees : txFees w.node.nBestHeight tx inputs = .ok nTxFees
  minFee : tx.getMinFee s.nBlockSize .block 0 ≤ nTxFees
  sigOps : ∃ nP2SHSigOps, tx.getP2SHSigOpCount inputs = .ok nP2SHSigOps ∧
    nTxSigOps = tx.getLegacySigOpCount + nP2SHSigOps ∧ s.nBlockSigOps + nTxSigOps < maxBlockSigops
  connected : tx.connectInputs env w.node inputs s.mapTestPool .memPool (some pindexPrev) false
    true = .ok mapTestPoolTmp
  sum : Int64.inRange (s.nFees + nTxFees) = true

/-- The variables after a transaction has been added, before its dependers are looked at. -/
def Assembly.added (env : Env) (s : Assembly) (tx : CTransaction)
    (mapTestPoolTmp : Map Uint256 CTxIndex) (nTxSigOps : Nat) (nTxFees : Int) : Assembly :=
  { s with
    mapTestPool := mapTestPoolTmp.insert (tx.getHash env) (.new .memPool tx.vout.length)
    vtx := s.vtx ++ [tx]
    nBlockSize := s.nBlockSize + tx.getSerializeSize
    nBlockSigOps := s.nBlockSigOps + nTxSigOps
    nFees := s.nFees + nTxFees }

theorem skipUnless_ok {α : Type} {s s' : Assembly} {result : Except Exit α}
    {f : α → NodeM Assembly} {w w' : World} (h : skipUnless s result f w = .ok s' w') :
    (s' = s ∧ w' = w) ∨ ∃ a, result = .ok a ∧ f a w = .ok s' w' := by
  rcases result with e | a
  · cases e with
    | abort what => exact absurd h nofun
    | _ => exact .inl (pure_eq_ok.mp h)
  · exact .inr ⟨a, rfl, h⟩

theorem addTx_ok {s s' : Assembly} {tx : CTransaction} {mapTestPoolTmp : Map Uint256 CTxIndex}
    {nTxSigOps : Nat} {nTxFees : Int} {w w' : World}
    (h : addTx env mapDependers s tx mapTestPoolTmp nTxSigOps nTxFees w = .ok s' w') :
    Int64.inRange (s.nFees + nTxFees) = true ∧
      ((mapDependers[tx.getHash env]?).getD []).foldlM (wakeDepender (tx.getHash env))
        (s.added env tx mapTestPoolTmp nTxSigOps nTxFees) w = .ok s' w' := by
  obtain ⟨nFees, hchecked, hwake⟩ := fromExcept_bind_eq_ok.mp h
  obtain ⟨hrange, rfl⟩ := Int64.checked_eq_ok.mp hchecked
  exact ⟨hrange, hwake⟩

/-- A turn of the loop passes over the transaction, or adds it and wakes its dependers. -/
theorem tryTx_ok {s s' : Assembly} {tx : CTransaction} {w w' : World}
    (h : tryTx env options priorities fProofOfStake pindexPrev nTimeCoinBase mapDependers s tx w =
      .ok s' w') :
    SameNode w w' ∧ ∃ byFee, s' = { s with fSortedByFee := byFee } ∨
      ∃ inputs mapTestPoolTmp nTxSigOps nTxFees w₁,
        Passes env options priorities fProofOfStake pindexPrev nTimeCoinBase w s tx inputs
          mapTestPoolTmp nTxSigOps nTxFees ∧
        ((mapDependers[tx.getHash env]?).getD []).foldlM (wakeDepender (tx.getHash env))
          ({ s with fSortedByFee := byFee }.added env tx mapTestPoolTmp nTxSigOps nTxFees) w₁ =
            .ok s' w' := by
  have hrun := h
  rw [tryTx, getSys_bind] at h
  split at h
  · obtain ⟨rfl, rfl⟩ := pure_eq_ok.mp h
    exact ⟨⟨rfl, rfl⟩, s'.fSortedByFee, .inl rfl⟩
  next hearly =>
  obtain ⟨fetched, w₁, hfetched, hrest⟩ := bind_eq_ok.mp h
  refine ⟨(reads_tryTx _ _ _ _ _ _ _ _ _).ok hrun, turnsToFee options priorities s tx, ?_⟩
  rcases skipUnless_ok hrest with ⟨rfl, -⟩ | ⟨inputs, hinputs, hfees⟩
  · exact .inl rfl
  have hfetch : tx.fetchInputs s.mapTestPool false true w = .ok inputs w₁ := by
    rcases attempt_eq_ok.mp hfetched with ⟨a, ha, hfetch⟩ | ⟨e, he, -⟩
    · rw [← Except.ok.inj (ha.symm.trans hinputs)]
      exact hfetch
    · exact absurd (he.symm.trans hinputs) (by simp)
  rw [getNode_bind, ((Reads.fetchInputs _ _ _ _).ok hfetch).node] at hfees
  obtain ⟨nTxFees, hfees, hrest⟩ := fromExcept_bind_eq_ok.mp hfees
  split at hrest
  · exact .inl (pure_eq_ok.mp hrest).1
  next hmin =>
  obtain ⟨nP2SHSigOps, hp2sh, hrest⟩ := fromExcept_bind_eq_ok.mp hrest
  dsimp only at hrest
  split at hrest
  · exact .inl (pure_eq_ok.mp hrest).1
  next hsigops =>
  rcases skipUnless_ok hrest with ⟨rfl, -⟩ | ⟨mapTestPoolTmp, hconnect, hadd⟩
  · exact .inl rfl
  obtain ⟨hrange, hwake⟩ := addTx_ok hadd
  exact .inr ⟨inputs, mapTestPoolTmp, tx.getLegacySigOpCount + nP2SHSigOps, nTxFees, w₁,
    ⟨Bool.eq_false_iff.mpr hearly, ⟨w₁, hfetch⟩, hfees, not_lt.mp hmin,
      ⟨nP2SHSigOps, hp2sh, rfl, not_le.mp hsigops⟩, hconnect, hrange⟩, hwake⟩

/-- The rule for the loop over the heap: what every turn keeps. -/
theorem assembleLoop_induction {I : Assembly → Prop} {fuel : Nat} {s s' : Assembly} {w w' : World}
    (h : assembleLoop env options priorities fProofOfStake pindexPrev nTimeCoinBase mapDependers
      fuel s w = .ok s' w')
    (hturn : ∀ (s s' : Assembly) (i : Nat) (tx : CTransaction) (w₁ w₂ : World), SameNode w w₁ →
      I s → s.vecPriority[i]? = some tx →
      tryTx env options priorities fProofOfStake pindexPrev nTimeCoinBase mapDependers
        { s with vecPriority := s.vecPriority.eraseIdx i } tx w₁ = .ok s' w₂ → I s')
    (hs : I s) : I s' := by
  suffices hgen : ∀ fuel s w₁, SameNode w w₁ → I s → assembleLoop env options priorities
      fProofOfStake pindexPrev nTimeCoinBase mapDependers fuel s w₁ = .ok s' w' → I s' from
    hgen fuel s w ⟨rfl, rfl⟩ hs h
  intro fuel
  induction fuel with
  | zero =>
    intro s w₁ _ hs h
    rw [(pure_eq_ok.mp h).1]
    exact hs
  | succ fuel ih =>
    intro s w₁ hsame hs h
    rw [assembleLoop] at h
    cases hheap : s.vecPriority with
    | nil =>
      rw [hheap] at h
      rw [(pure_eq_ok.mp h).1]
      exact hs
    | cons first rest =>
      rw [hheap] at h
      obtain ⟨s₁, w₂, hone, hrest⟩ := bind_eq_ok.mp h
      have hsame₂ := (reads_tryTx _ _ _ _ _ _ _ _ _).ok hone
      refine ih s₁ w₂ ⟨hsame₂.node.trans hsame.node, hsame₂.log.trans hsame.log⟩ ?_ hrest
      rw [← hheap] at hone
      refine hturn s s₁ _ _ w₁ w₂ hsame hs ?_ hone
      have hlt : priorities.front s.fSortedByFee s.vecPriority % s.vecPriority.length <
          s.vecPriority.length := Nat.mod_lt _ (by rw [hheap]; exact Nat.succ_pos _)
      rw [List.getElem?_eq_getElem hlt]
      rfl

/-- The transactions of the block have the property that those of the pool have, and are not
later than a proof-of-stake block's coin base. -/
theorem assembleLoop_all {p : CTransaction → Prop} {fuel : Nat} {s s' : Assembly} {w w' : World}
    (h : assembleLoop env options priorities fProofOfStake pindexPrev nTimeCoinBase mapDependers
      fuel s w = .ok s' w') (hall : s.All p) (hempty : s.vtx = []) :
    ∀ tx ∈ s'.vtx, p tx ∧ (fProofOfStake = true → tx.nTime ≤ nTimeCoinBase) := by
  refine (assembleLoop_induction (I := fun s => s.All p ∧ ∀ tx ∈ s.vtx, p tx ∧
    (fProofOfStake = true → tx.nTime ≤ nTimeCoinBase)) h ?_ ⟨hall, by simp [hempty]⟩).2
  rintro s s₁ i tx w₁ w₂ - ⟨hall, hvtx⟩ hi hturn
  have htx : p tx := hall.heap tx (List.mem_of_getElem? hi)
  have hpopped : Assembly.All p { s with vecPriority := s.vecPriority.eraseIdx i } :=
    ⟨fun tx' htx' => hall.heap tx' (List.mem_of_mem_eraseIdx htx'), hall.records⟩
  obtain ⟨-, byFee, rfl | ⟨inputs, pool, nTxSigOps, nTxFees, w₃, hpasses, hwake⟩⟩ :=
    tryTx_ok hturn
  · exact ⟨⟨hpopped.heap, hpopped.records⟩, hvtx⟩
  · obtain ⟨hall', hwoken, -⟩ := wakeLoop_ok (p := p) hwake ⟨hpopped.heap, hpopped.records⟩
    refine ⟨hall', fun tx' htx' => ?_⟩
    rw [hwoken] at htx'
    rcases List.mem_append.mp htx' with hmem | hmem
    · exact hvtx tx' hmem
    · rw [List.mem_singleton.mp hmem]
      refine ⟨htx, fun hstake => ?_⟩
      have hearly := hpasses.early
      simp only [skipsEarly, Bool.or_eq_false_iff, hstake, Bool.true_and, decide_eq_false_iff_not,
        not_lt] at hearly
      exact hearly.1.2.2

end

/-- The transactions that `CreateNewBlock` puts after the coin base. -/
theorem collect_all {env : Env} {options : Options} {priorities : Priorities}
    {fProofOfStake : Bool} {pindexPrev : Uint256} {nTimeCoinBase : Nat} {s : Assembly} {w w' : World}
    (h : collect env options priorities fProofOfStake pindexPrev nTimeCoinBase w = .ok s w') :
    ∀ tx ∈ s.vtx, (tx ∈ poolTxs w.node ∧ tx.isCoinBase = false ∧ tx.isCoinStake = false) ∧
      (fProofOfStake = true → tx.nTime ≤ nTimeCoinBase) := by
  obtain ⟨g, w₁, hgather, hloop⟩ := bind_eq_ok.mp h
  have hall := gather_all hgather
  exact assembleLoop_all hloop ⟨hall.heap, hall.records⟩ rfl

/-- A proof-of-stake template: an empty coin base, and transactions of the pool that are no
later. -/
structure IsTemplate (block : CBlock) : Prop where
  coinbase : ∃ coinbase rest, block.vtx = coinbase :: rest ∧ coinbase.vout = [.empty] ∧
    coinbase.nTime < 2 ^ 32 ∧
    ∀ tx ∈ rest, tx.isCoinBase = false ∧ tx.isCoinStake = false ∧ tx.nTime ≤ coinbase.nTime

theorem toUint32_lt (n : Int) : toUint32 n < 2 ^ 32 := by
  have h := Int.emod_lt_of_pos n (show (0 : Int) < 2 ^ 32 by decide)
  unfold toUint32
  omega

theorem createNewBlock_template {env : Env} {options : Options} {priorities : Priorities}
    {reserved : Option CScript} {block : CBlock} {nFees : Int} {w w' : World}
    (h : createNewBlock env options priorities reserved true w = .ok (some (block, nFees)) w') :
    IsTemplate block := by
  rw [createNewBlock, getNode_bind, getSys_bind] at h
  obtain ⟨pindexPrev, -, h⟩ := nonNull_bind_eq_ok.mp h
  obtain ⟨indexPrev, -, h⟩ := deref_bind_eq_ok.mp h
  obtain ⟨s, w₁, hcollect, h⟩ := bind_eq_ok.mp h
  obtain ⟨coinbase, w₂, hcoinbase, h⟩ := bind_eq_ok.mp h
  obtain ⟨hblock, -⟩ := pure_eq_ok.mp h
  obtain ⟨rfl, -⟩ := Prod.mk.inj (Option.some.inj hblock)
  obtain ⟨rfl, -⟩ := pure_eq_ok.mp hcoinbase
  refine ⟨_, _, rfl, rfl, toUint32_lt _, fun tx htx => ?_⟩
  obtain ⟨⟨-, hbase, hstake⟩, htime⟩ := collect_all hcollect tx htx
  exact ⟨hbase, hstake, htime rfl⟩

end Miner

end NoLimitCoin
