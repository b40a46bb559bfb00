import NoLimitCoin.Lib.Dependents
import NoLimitCoin.Reads

/-!
# Runs of the memory pool

`mapNextTx` says of every output that a transaction of the pool spends which one spends it, and
at which input.  Adding and removing transactions keeps it so.

Results:

1. `Represented`: what the two maps have to do with each other.
2. `remove_less`: `remove` with `fRecursive` ends, and takes out the transaction and all that
   depends on it.
3. `removeConflicts_less`: `removeConflicts` takes out the other spenders of the inputs, and all
   that depends on them.
4. `memPool_represented`: both maps agree after every sequence of calls.
-/

namespace NoLimitCoin

open Prog NodeM Relation Dependents

/-! ## Hashes -/

/-- `b` has an input that names the hash of `a`. -/
def CTransaction.Names (env : Env) (a b : CTransaction) : Prop :=
  ∃ txin ∈ b.vin, txin.prevout.hash = a.getHash env

/-- The hashes of the transactions `T` tell them apart, and none of them depends on itself: it
would have to contain a hash that is computed from it. -/
structure CollisionFree (env : Env) (T : CTransaction → Prop) : Prop where
  injective : ∀ a b, T a → T b → a.getHash env = b.getHash env → a = b
  acyclic : ∀ a, ¬ TransGen (fun a b => T a ∧ T b ∧ a.Names env b) a a

namespace CTxMemPool

/-! ## Representation -/

/-- `mapNextTx` is the map from every prevout of a transaction in `mapTx` to the transaction and
the position of the input. -/
structure Represented (env : Env) (pool : CTxMemPool) : Prop where
  keyed : ∀ (h : Uint256) (tx : CTransaction), pool.mapTx[h]? = some tx → tx.getHash env = h
  next : ∀ (o : COutPoint) (p : CInPoint), pool.mapNextTx[o]? = some p ↔
    ∃ (tx : CTransaction) (txin : CTxIn), pool.mapTx[p.ptx]? = some tx ∧ tx.vin[p.n]? = some txin ∧ txin.prevout = o

/-- The transactions of the pool are among `T`. -/
def Within (T : CTransaction → Prop) (pool : CTxMemPool) : Prop :=
  ∀ (h : Uint256) (tx : CTransaction), pool.mapTx[h]? = some tx → T tx

/-- The transaction `b` of the pool spends an output of the transaction `a` of the pool. -/
def Spends (pool : CTxMemPool) (a b : Uint256) : Prop :=
  ∃ txa txb : CTransaction, pool.mapTx[a]? = some txa ∧ pool.mapTx[b]? = some txb ∧
    ∃ txin ∈ txb.vin, txin.prevout.hash = a ∧ txin.prevout.n < txa.vout.length

/-- `pool'` is `pool` without the transactions `gone`. -/
structure Less (env : Env) (pool : CTxMemPool) (gone : Uint256 → Prop) (pool' : CTxMemPool) :
    Prop where
  represented : Represented env pool'
  mapTx : ∀ (h : Uint256) (tx : CTransaction), pool'.mapTx[h]? = some tx ↔ pool.mapTx[h]? = some tx ∧ ¬ gone h

variable {env : Env} {T : CTransaction → Prop} {pool pool' pool'' : CTxMemPool}
  {gone gone' : Uint256 → Prop}

theorem Represented.spender {o : COutPoint} {p : CInPoint} (h : Represented env pool)
    (hp : pool.mapNextTx[o]? = some p) : ∃ tx, pool.mapTx[p.ptx]? = some tx ∧
      ∃ txin ∈ tx.vin, txin.prevout = o := by
  obtain ⟨tx, txin, htx, hvin, ho⟩ := (h.next o p).mp hp
  exact ⟨tx, htx, txin, List.mem_of_getElem? hvin, ho⟩

theorem Represented.next_of_mem {a : Uint256} {tx : CTransaction} {txin : CTxIn}
    (h : Represented env pool) (htx : pool.mapTx[a]? = some tx) (hin : txin ∈ tx.vin) :
    ∃ n, pool.mapNextTx[txin.prevout]? = some ⟨a, n⟩ := by
  obtain ⟨n, hn⟩ := List.mem_iff_getElem?.mp hin
  exact ⟨n, (h.next _ _).mpr ⟨tx, txin, htx, hn, rfl⟩⟩

/-- No two transactions of the pool spend the same output. -/
theorem Represented.unique {a b : Uint256} {txa txb : CTransaction} {ia ib : CTxIn}
    (h : Represented env pool) (ha : pool.mapTx[a]? = some txa) (hb : pool.mapTx[b]? = some txb)
    (hia : ia ∈ txa.vin) (hib : ib ∈ txb.vin) (heq : ia.prevout = ib.prevout) : a = b := by
  obtain ⟨n, hn⟩ := h.next_of_mem ha hia
  obtain ⟨m, hm⟩ := h.next_of_mem hb hib
  rw [heq, hm] at hn
  exact (congrArg CInPoint.ptx (Option.some.inj hn)).symm

namespace Less

theorem trans (h : Less env pool gone pool') (h' : Less env pool' gone' pool'') :
    Less env pool (fun a => gone a ∨ gone' a) pool'' := by
  refine ⟨h'.represented, fun a tx => ?_⟩
  rw [h'.mapTx, h.mapTx, and_assoc, not_or]

theorem congr (h : Less env pool gone pool')
    (heq : ∀ (a : Uint256) (tx : CTransaction), pool.mapTx[a]? = some tx → (gone a ↔ gone' a)) : Less env pool gone' pool' := by
  refine ⟨h.represented, fun a tx => (h.mapTx a tx).trans ?_⟩
  constructor
  · rintro ⟨htx, ha⟩
    exact ⟨htx, mt (heq a tx htx).mpr ha⟩
  · rintro ⟨htx, ha⟩
    exact ⟨htx, mt (heq a tx htx).mp ha⟩

theorem within (h : Less env pool gone pool') (hT : Within T pool) : Within T pool' :=
  fun a tx htx => hT a tx ((h.mapTx a tx).mp htx).1

/-- Taking transactions out leaves the other dependencies alone. -/
theorem outside (h : Less env pool gone pool') : Outside pool.Spends gone pool'.Spends := by
  intro a b
  constructor
  · rintro ⟨txa, txb, ha, hb, hin⟩
    obtain ⟨ha, hga⟩ := (h.mapTx a txa).mp ha
    obtain ⟨hb, hgb⟩ := (h.mapTx b txb).mp hb
    exact ⟨⟨txa, txb, ha, hb, hin⟩, hga, hgb⟩
  · rintro ⟨⟨txa, txb, ha, hb, hin⟩, hga, hgb⟩
    exact ⟨txa, txb, (h.mapTx a txa).mpr ⟨ha, hga⟩, (h.mapTx b txb).mpr ⟨hb, hgb⟩, hin⟩

theorem next (h : Less env pool gone pool') (hrep : Represented env pool) {o : COutPoint}
    {p : CInPoint} : pool'.mapNextTx[o]? = some p ↔ pool.mapNextTx[o]? = some p ∧ ¬ gone p.ptx := by
  rw [h.represented.next, hrep.next]
  constructor
  · rintro ⟨tx, txin, htx, hin, ho⟩
    obtain ⟨htx, hgone⟩ := (h.mapTx _ _).mp htx
    exact ⟨⟨tx, txin, htx, hin, ho⟩, hgone⟩
  · rintro ⟨⟨tx, txin, htx, hin, ho⟩, hgone⟩
    exact ⟨tx, txin, (h.mapTx _ _).mpr ⟨htx, hgone⟩, hin, ho⟩

end Less

theorem Represented.less_refl (h : Represented env pool) : Less env pool (fun _ => False) pool :=
  ⟨h, fun _ _ => by rw [not_false_eq_true, and_true]⟩

/-! ## One transaction more or less -/

theorem getElem?_foldl_erase (vin : List CTxIn) (m : Map COutPoint CInPoint) (o : COutPoint) :
    (vin.foldl (fun m txin => m.erase txin.prevout) m)[o]? =
      if ∃ txin ∈ vin, txin.prevout = o then none else m[o]? := by
  induction vin generalizing m with
  | nil => simp
  | cons txin vin ih =>
    rw [List.foldl_cons, ih, Map.getElem?_erase]
    by_cases htail : ∃ t ∈ vin, t.prevout = o
    · simp [htail]
    · by_cases hhead : txin.prevout = o
      · simp [hhead]
      · simp [htail, hhead]

theorem eraseTx_less {a : Uint256} {tx : CTransaction} (h : Represented env pool)
    (htx : pool.mapTx[a]? = some tx) : Less env pool (fun b => b = a) (pool.eraseTx a tx) := by
  have hmap : ∀ b t, (pool.eraseTx a tx).mapTx[b]? = some t ↔
      pool.mapTx[b]? = some t ∧ ¬ b = a := by
    intro b t
    show (pool.mapTx.erase a)[b]? = some t ↔ _
    rw [Map.getElem?_erase]
    by_cases hab : a = b
    · simp [hab]
    · simp [hab, Ne.symm hab]
  refine ⟨⟨fun b t hb => h.keyed b t ((hmap b t).mp hb).1, fun o p => ?_⟩, hmap⟩
  show (tx.vin.foldl _ _)[o]? = some p ↔ _
  rw [getElem?_foldl_erase]
  constructor
  · intro hp
    split at hp
    · exact absurd hp (by simp)
    · next hnone =>
      obtain ⟨t, txin, ht, hin, ho⟩ := (h.next o p).mp hp
      refine ⟨t, txin, (hmap _ _).mpr ⟨ht, fun heq => hnone ?_⟩, hin, ho⟩
      rw [heq, htx] at ht
      rw [Option.some.inj ht]
      exact ⟨txin, List.mem_of_getElem? hin, ho⟩
  · rintro ⟨t, txin, ht, hin, ho⟩
    obtain ⟨ht, hne⟩ := (hmap _ _).mp ht
    rw [if_neg, (h.next o p).mpr ⟨t, txin, ht, hin, ho⟩]
    rintro ⟨txin', hin', ho'⟩
    exact hne (h.unique ht htx (List.mem_of_getElem? hin) hin' (ho.trans ho'.symm))

/-- What `addUnchecked` relies on: the transaction is not there yet, and spends every output once
and none that the pool spends. -/
structure NoConflict (env : Env) (pool : CTxMemPool) (tx : CTransaction) : Prop where
  fresh : pool.mapTx[tx.getHash env]? = none
  unspent : ∀ txin ∈ tx.vin, pool.mapNextTx[txin.prevout]? = none
  nodup : (tx.vin.map CTxIn.prevout).Nodup

/-- An input at position `n` of a list whose first input has position `k`. -/
theorem getElem?_cons_sub (txin : CTxIn) (vin : List CTxIn) (k n : Nat) (t : CTxIn) :
    k ≤ n ∧ (txin :: vin)[n - k]? = some t ↔
      (n = k ∧ t = txin) ∨ (k + 1 ≤ n ∧ vin[n - (k + 1)]? = some t) := by
  rcases Nat.lt_trichotomy n k with hlt | rfl | hgt
  · constructor
    · rintro ⟨hle, -⟩
      omega
    · rintro (⟨rfl, -⟩ | ⟨hle, -⟩) <;> omega
  · simp [eq_comm]
  · obtain ⟨d, rfl⟩ := Nat.exists_eq_add_of_lt hgt
    rw [show k + d + 1 - k = d + 1 by omega, show k + d + 1 - (k + 1) = d by omega,
      List.getElem?_cons_succ]
    constructor
    · rintro ⟨-, ht⟩
      exact .inr ⟨by omega, ht⟩
    · rintro (⟨heq, -⟩ | ⟨-, ht⟩)
      · omega
      · exact ⟨by omega, ht⟩

theorem getElem?_foldl_insert (a : Uint256) (vin : List CTxIn) (k : Nat)
    (m : Map COutPoint CInPoint) (hnodup : (vin.map CTxIn.prevout).Nodup) (o : COutPoint)
    (p : CInPoint) :
    ((vin.zipIdx k).foldl (fun m (txin, i) => m.insert txin.prevout ⟨a, i⟩) m)[o]? = some p ↔
      (p.ptx = a ∧ ∃ txin, (k ≤ p.n ∧ vin[p.n - k]? = some txin) ∧ txin.prevout = o) ∨
        ((∀ txin ∈ vin, txin.prevout ≠ o) ∧ m[o]? = some p) := by
  induction vin generalizing k m with
  | nil => simp
  | cons txin vin ih =>
    obtain ⟨hhead, htail⟩ := List.nodup_cons.mp hnodup
    rw [List.zipIdx_cons, List.foldl_cons, ih _ _ htail, Map.getElem?_insert]
    simp only [getElem?_cons_sub, List.forall_mem_cons]
    by_cases ho : txin.prevout = o
    · have hnone : ∀ t ∈ vin, t.prevout ≠ o := fun t ht heq =>
        hhead (List.mem_map.mpr ⟨t, ht, heq.trans ho.symm⟩)
      rw [if_pos ho]
      constructor
      · rintro (⟨hptx, t, ht, hto⟩ | ⟨-, hp⟩)
        · exact absurd hto (hnone t (List.mem_of_getElem? ht.2))
        · obtain rfl := Option.some.inj hp
          exact .inl ⟨rfl, txin, .inl ⟨rfl, rfl⟩, ho⟩
      · rintro (⟨hptx, t, ⟨hn, rfl⟩ | ht, hto⟩ | ⟨⟨hne, -⟩, -⟩)
        · exact .inr ⟨hnone, by rw [← hptx, ← hn]⟩
        · exact absurd hto (hnone t (List.mem_of_getElem? ht.2))
        · exact absurd ho hne
    · rw [if_neg ho]
      constructor
      · rintro (⟨hptx, t, ht, hto⟩ | ⟨hnone, hm⟩)
        · exact .inl ⟨hptx, t, .inr ht, hto⟩
        · exact .inr ⟨⟨ho, hnone⟩, hm⟩
      · rintro (⟨hptx, t, ⟨-, rfl⟩ | ht, hto⟩ | ⟨⟨-, hnone⟩, hm⟩)
        · exact absurd hto ho
        · exact .inl ⟨hptx, t, ht, hto⟩
        · exact .inr ⟨hnone, hm⟩

theorem addUnchecked_represented {tx : CTransaction} (h : Represented env pool)
    (hno : NoConflict env pool tx) : Represented env (pool.addUnchecked (tx.getHash env) tx) := by
  have hmap : ∀ (b : Uint256) (t : CTransaction),
      (pool.addUnchecked (tx.getHash env) tx).mapTx[b]? = some t ↔
        (b = tx.getHash env ∧ t = tx) ∨ (b ≠ tx.getHash env ∧ pool.mapTx[b]? = some t) := by
    intro b t
    show (pool.mapTx.insert _ tx)[b]? = some t ↔ _
    rw [Map.getElem?_insert]
    by_cases hb : tx.getHash env = b
    · simp [hb, eq_comm]
    · simp [hb, Ne.symm hb]
  refine ⟨fun b t hb => ?_, fun o p => ?_⟩
  · rcases (hmap b t).mp hb with ⟨rfl, rfl⟩ | ⟨-, ht⟩
    · rfl
    · exact h.keyed b t ht
  · show (tx.vin.zipIdx.foldl _ _)[o]? = some p ↔ _
    rw [getElem?_foldl_insert _ _ _ _ hno.nodup]
    constructor
    · rintro (⟨hptx, txin, ⟨-, hin⟩, ho⟩ | ⟨-, hp⟩)
      · exact ⟨tx, txin, (hmap _ _).mpr (.inl ⟨hptx, rfl⟩), hin, ho⟩
      · obtain ⟨t, txin, ht, hin, ho⟩ := (h.next o p).mp hp
        refine ⟨t, txin, (hmap _ _).mpr (.inr ⟨fun heq => ?_, ht⟩), hin, ho⟩
        rw [heq, hno.fresh] at ht
        exact absurd ht (by simp)
    · rintro ⟨t, txin, ht, hin, ho⟩
      rcases (hmap _ _).mp ht with ⟨hptx, rfl⟩ | ⟨-, ht⟩
      · exact .inl ⟨hptx, txin, ⟨Nat.zero_le _, hin⟩, ho⟩
      · have hp := (h.next o p).mpr ⟨t, txin, ht, hin, ho⟩
        refine .inr ⟨fun txin' hin' heq => ?_, hp⟩
        rw [← heq, hno.unspent txin' hin'] at hp
        exact absurd hp (by simp)

/-! ## Removing dependants -/

/-- The spender of `o` in the pool, if it is one of `chosen`, and what depends on it. -/
def Below (pool : CTxMemPool) (chosen : Uint256 → Prop) (o : COutPoint) (h : Uint256) : Prop :=
  ∃ p, pool.mapNextTx[o]? = some p ∧ chosen p.ptx ∧ ReflTransGen pool.Spends p.ptx h

theorem closed_below (pool : CTxMemPool) (chosen : Uint256 → Prop) (o : COutPoint) :
    Closed pool.Spends (pool.Below chosen o) := by
  rintro a b ⟨p, hp, hchosen, hpa⟩ hab
  exact ⟨p, hp, hchosen, hpa.tail hab⟩

/-- Look up the spender of an output and do something about it. -/
def withSpender (f : CTxMemPool → CTransaction → Except Exit CTxMemPool) (pool : CTxMemPool)
    (o : COutPoint) : Except Exit CTxMemPool :=
  match pool.mapNextTx[o]? with
  | none => pure pool
  | some inpoint => do
    let txNext ← pool.lookupInPoint inpoint
    f pool txNext

theorem withSpender_none {f : CTxMemPool → CTransaction → Except Exit CTxMemPool} {o : COutPoint}
    (h : pool.mapNextTx[o]? = none) : pool.withSpender f o = .ok pool := by
  rw [withSpender, h]
  rfl

theorem withSpender_some {f : CTxMemPool → CTransaction → Except Exit CTxMemPool} {o : COutPoint}
    {p : CInPoint} {tx : CTransaction} (h : pool.mapNextTx[o]? = some p)
    (htx : pool.mapTx[p.ptx]? = some tx) : pool.withSpender f o = f pool tx := by
  have hlookup : pool.lookupInPoint p = .ok tx := by rw [lookupInPoint, htx]
  rw [withSpender, h]
  show (pool.lookupInPoint p >>= f pool) = f pool tx
  rw [hlookup]
  rfl

/-- One round of a loop that removes spenders: some transactions, and all that depends on them,
have gone before. -/
theorem withSpender_less {f : CTxMemPool → CTransaction → Except Exit CTxMemPool}
    {chosen : Uint256 → Prop} {o : COutPoint} (hrep : Represented env pool)
    (hclosed : Closed pool.Spends gone) (hless : Less env pool gone pool')
    (hf : ∀ p tx, pool'.mapNextTx[o]? = some p → pool'.mapTx[p.ptx]? = some tx →
      ∃ pool'', f pool' tx = .ok pool'' ∧
        Less env pool' (fun h => chosen p.ptx ∧ ReflTransGen pool'.Spends p.ptx h) pool'') :
    ∃ pool'', pool'.withSpender f o = .ok pool'' ∧
      Less env pool (fun h => gone h ∨ pool.Below chosen o h) pool'' := by
  cases hp : pool'.mapNextTx[o]? with
  | none =>
    refine ⟨pool', withSpender_none hp, hless.congr fun a tx _ => ⟨.inl, ?_⟩⟩
    rintro (ha | ⟨p, hp', -, hpa⟩)
    · exact ha
    · -- the spender has gone, and so has everything that depends on it
      have hgone : gone p.ptx := by
        by_contra hgone
        rw [(hless.next hrep).mpr ⟨hp', hgone⟩] at hp
        exact absurd hp (by simp)
      exact hclosed.reach hgone hpa
  | some p =>
    obtain ⟨tx, htx, -⟩ := hless.represented.spender hp
    obtain ⟨pool'', hrun, hless'⟩ := hf p tx hp htx
    refine ⟨pool'', (withSpender_some hp htx).trans hrun, (hless.trans hless').congr ?_⟩
    intro a t _
    have hp' := ((hless.next hrep).mp hp).1
    by_cases hgone : gone a
    · simp only [hgone, true_or]
    · rw [reach_outside hclosed hless.outside hgone]
      constructor
      · rintro (ha | ⟨hchosen, hpa⟩)
        · exact .inl ha
        · exact .inr ⟨p, hp', hchosen, hpa⟩
      · rintro (ha | ⟨q, hq, hchosen, hqa⟩)
        · exact .inl ha
        · obtain rfl := Option.some.inj (hq.symm.trans hp')
          exact .inr ⟨hchosen, hqa⟩

/-- A loop whose rounds each take out a closed set takes out all of them. -/
theorem foldlM_less {β : Type} {step : CTxMemPool → β → Except Exit CTxMemPool}
    {D : β → Uint256 → Prop} (hD : ∀ b, Closed pool.Spends (D b)) {bs : List β}
    (hstep : ∀ b ∈ bs, ∀ gone pool', Closed pool.Spends gone → Less env pool gone pool' →
      ∃ pool'', step pool' b = .ok pool'' ∧ Less env pool (fun h => gone h ∨ D b h) pool'')
    (hclosed : Closed pool.Spends gone) (h : Less env pool gone pool') :
    ∃ pool'', bs.foldlM step pool' = .ok pool'' ∧
      Less env pool (fun a => gone a ∨ ∃ b ∈ bs, D b a) pool'' := by
  induction bs generalizing gone pool' with
  | nil => exact ⟨pool', rfl, h.congr fun a tx _ => by simp⟩
  | cons b bs ih =>
    obtain ⟨pool₁, hrun, hless⟩ := hstep b List.mem_cons_self gone pool' hclosed h
    obtain ⟨pool₂, hrest, hless'⟩ := ih (fun c hc => hstep c (List.mem_cons_of_mem b hc))
      (hclosed.or (hD b)) hless
    refine ⟨pool₂, ?_, hless'.congr fun a tx _ => ?_⟩
    · rw [List.foldlM_cons, hrun]
      exact hrest
    · simp only [List.exists_mem_cons_iff, or_assoc]

theorem acyclic_spends (hT : CollisionFree env T) (hrep : Represented env pool)
    (hin : Within T pool) (a : Uint256) : ¬ TransGen pool.Spends a a := by
  intro h
  obtain ⟨b, hab, -⟩ := TransGen.head'_iff.mp h
  obtain ⟨txa, -⟩ := hab
  refine hT.acyclic _ (TransGen.lift (fun h => (pool.mapTx[h]?).getD txa) ?_ _ _ h)
  rintro c d ⟨txc, txd, hc, hd, txin, hvin, hhash, -⟩
  simp only [Function.onFun, hc, hd, Option.getD_some]
  exact ⟨hin c txc hc, hin d txd hd, txin, hvin, hhash.trans (hrep.keyed c txc hc).symm⟩

open Classical in
/-- How many transactions of the pool depend on `a`, `a` included. -/
noncomputable def dependants (pool : CTxMemPool) (a : Uint256) : Nat :=
  (pool.mapTx.keys.toFinset.filter (ReflTransGen pool.Spends a)).card

open Classical in
theorem dependants_le (pool : CTxMemPool) (a : Uint256) : pool.dependants a ≤ pool.mapTx.size := by
  refine (Finset.card_filter_le _ _).trans ((List.toFinset_card_le _).trans ?_)
  exact (Std.ExtTreeMap.length_keys).le

theorem mem_keys (pool : CTxMemPool) (a : Uint256) :
    a ∈ pool.mapTx.keys.toFinset ↔ ∃ tx, pool.mapTx[a]? = some tx := by
  rw [List.mem_toFinset, Std.ExtTreeMap.mem_keys, ← Std.ExtTreeMap.contains_iff_mem,
    Map.contains_iff]

theorem Less.dependants_lt (hT : CollisionFree env T) (hrep : Represented env pool)
    (hin : Within T pool) (h : Less env pool gone pool') {a b : Uint256} (hab : pool.Spends a b) :
    pool'.dependants b < pool.dependants a := by
  obtain ⟨txa, txb, ha, hb, hspends⟩ := hab
  refine card_reach_lt (acyclic_spends hT hrep hin a) ⟨txa, txb, ha, hb, hspends⟩
    ((pool.mem_keys a).mpr ⟨txa, ha⟩) ?_ fun x y hxy => ((h.outside x y).mp hxy).1
  intro c hc
  obtain ⟨txc, htxc⟩ := (pool'.mem_keys c).mp hc
  exact (pool.mem_keys c).mpr ⟨txc, ((h.mapTx c txc).mp htxc).1⟩

/-- The body of the loop of `remove`. -/
theorem remove_true_of_mem {fuel : Nat} {tx : CTransaction}
    (h : pool.mapTx.contains (tx.getHash env) = true) : remove env (fuel + 1) pool tx true = (do
      let pool ← (List.range tx.vout.length).foldlM (fun pool i =>
        pool.withSpender (fun pool txNext => remove env fuel pool txNext true)
          ⟨tx.getHash env, i⟩) pool
      pure (pool.eraseTx (tx.getHash env) tx)) := by
  rw [remove]
  simp only [h, Bool.not_true, Bool.false_eq_true, if_false, if_true]
  rfl

theorem remove_of_notMem {fuel : Nat} {tx : CTransaction} {fRecursive : Bool}
    (h : pool.mapTx.contains (tx.getHash env) = false) :
    remove env (fuel + 1) pool tx fRecursive = .ok pool := by
  rw [remove]
  simp only [h, Bool.not_false, if_true]
  rfl

theorem remove_false_of_mem {fuel : Nat} {tx : CTransaction}
    (h : pool.mapTx.contains (tx.getHash env) = true) :
    remove env (fuel + 1) pool tx false = .ok (pool.eraseTx (tx.getHash env) tx) := by
  rw [remove]
  simp only [h, Bool.not_true, Bool.false_eq_true, if_false]
  rfl

/-- Under the hash of a transaction the pool has that transaction. -/
theorem eq_of_getHash (hT : CollisionFree env T) (hrep : Represented env pool)
    (hin : Within T pool) {tx t : CTransaction} (htx : T tx)
    (h : pool.mapTx[tx.getHash env]? = some t) : t = tx :=
  hT.injective t tx (hin _ t h) htx (hrep.keyed _ t h)

theorem reach_of_none {a b : Uint256} {tx : CTransaction} (ha : pool.mapTx[a]? = none)
    (hb : pool.mapTx[b]? = some tx) : ¬ ReflTransGen pool.Spends a b := by
  intro h
  rcases ReflTransGen.cases_head h with rfl | ⟨c, ⟨txa, -, hspends, -⟩, -⟩
  · rw [ha] at hb
    exact absurd hb (by simp)
  · rw [ha] at hspends
    exact absurd hspends (by simp)

theorem spends_of_next {a : Uint256} {t : CTransaction} {i : Nat} {p : CInPoint}
    (hrep : Represented env pool) (ht : pool.mapTx[a]? = some t) (hi : i < t.vout.length)
    (hp : pool.mapNextTx[(⟨a, i⟩ : COutPoint)]? = some p) : pool.Spends a p.ptx := by
  obtain ⟨t', ht', txin, hvin, ho⟩ := hrep.spender hp
  exact ⟨t, t', ht, ht', txin, hvin, by rw [ho], by rw [ho]; exact hi⟩

/-- The outputs of a transaction lead to everything that depends on it. -/
theorem exists_below_iff {a : Uint256} {t : CTransaction} (hrep : Represented env pool)
    (ht : pool.mapTx[a]? = some t) (x : Uint256) :
    (∃ i ∈ List.range t.vout.length, pool.Below (fun _ => True) ⟨a, i⟩ x) ↔
      ∃ b, pool.Spends a b ∧ ReflTransGen pool.Spends b x := by
  constructor
  · rintro ⟨i, hi, p, hp, -, hpx⟩
    exact ⟨p.ptx, spends_of_next hrep ht (List.mem_range.mp hi) hp, hpx⟩
  · rintro ⟨b, ⟨t', tb, ht', hb, txin, hvin, hhash, hn⟩, hbx⟩
    obtain rfl := Option.some.inj (ht.symm.trans ht')
    obtain ⟨m, hm⟩ := hrep.next_of_mem hb hvin
    refine ⟨txin.prevout.n, List.mem_range.mpr hn, ⟨b, m⟩, ?_, trivial, hbx⟩
    rw [← hhash]
    exact hm

/-- `remove(tx, true)` ends, and takes out `tx` and everything that depends on it. -/
theorem remove_less (hT : CollisionFree env T) {fuel : Nat} {tx : CTransaction}
    (hrep : Represented env pool) (hin : Within T pool) (htx : T tx)
    (hfuel : pool.dependants (tx.getHash env) < fuel) :
    ∃ pool', remove env fuel pool tx true = .ok pool' ∧
      Less env pool (ReflTransGen pool.Spends (tx.getHash env)) pool' := by
  induction fuel generalizing pool tx with
  | zero => exact absurd hfuel (Nat.not_lt_zero _)
  | succ fuel ih =>
    cases hmem : pool.mapTx.contains (tx.getHash env) with
    | false =>
      have hnone := (Map.contains_eq_false_iff _ _).mp hmem
      refine ⟨pool, remove_of_notMem hmem, hrep.less_refl.congr fun a t ha => ?_⟩
      exact ⟨fun h => h.elim, fun h => reach_of_none hnone ha h⟩
    | true =>
      obtain ⟨t, ht⟩ := (Map.contains_iff _ _).mp hmem
      obtain rfl := eq_of_getHash hT hrep hin htx ht
      -- what spends an output goes first
      have hstep : ∀ i ∈ List.range t.vout.length, ∀ gone pool', Closed pool.Spends gone →
          Less env pool gone pool' → ∃ pool'', pool'.withSpender
            (fun pool txNext => remove env fuel pool txNext true) ⟨t.getHash env, i⟩ = .ok pool'' ∧
            Less env pool (fun h => gone h ∨
              pool.Below (fun _ => True) ⟨t.getHash env, i⟩ h) pool'' := by
        intro i hi gone pool' hclosed hless
        refine withSpender_less hrep hclosed hless fun p txNext hp htxNext => ?_
        have hspends := spends_of_next hrep ht (List.mem_range.mp hi) ((hless.next hrep).mp hp).1
        have hkey := hless.represented.keyed _ _ htxNext
        have hlt := hless.dependants_lt hT hrep hin hspends
        obtain ⟨pool'', hrun, hless'⟩ := ih hless.represented (hless.within hin)
          (hless.within hin _ _ htxNext) (by rw [hkey]; omega)
        rw [hkey] at hless'
        exact ⟨pool'', hrun, hless'.congr fun a _ _ => by rw [true_and]⟩
      obtain ⟨pool₁, hloop, hless⟩ := foldlM_less (fun i => closed_below pool _ _) hstep
        (fun _ _ h _ => h) hrep.less_refl
      -- the transaction itself is still there
      have hstill : pool₁.mapTx[t.getHash env]? = some t := by
        refine (hless.mapTx _ _).mpr ⟨ht, ?_⟩
        rintro (h | h)
        · exact h
        · obtain ⟨b, hb, hba⟩ := (exists_below_iff hrep ht _).mp h
          exact acyclic_spends hT hrep hin _ (TransGen.head' hb hba)
      refine ⟨pool₁.eraseTx (t.getHash env) t, ?_,
        (hless.trans (eraseTx_less hless.represented hstill)).congr fun a tx _ => ?_⟩
      · rw [remove_true_of_mem hmem, hloop]
        rfl
      · rw [exists_below_iff hrep ht, false_or, ReflTransGen.cases_head_iff, or_comm, eq_comm]

theorem remove_size_less (hT : CollisionFree env T) {tx : CTransaction}
    (hrep : Represented env pool) (hin : Within T pool) (htx : T tx) :
    ∃ pool', remove env (pool.mapTx.size + 1) pool tx true = .ok pool' ∧
      Less env pool (ReflTransGen pool.Spends (tx.getHash env)) pool' :=
  remove_less hT hrep hin htx (Nat.lt_succ_of_le (pool.dependants_le _))

/-- `removeConflicts(tx)` ends, and takes out the other spenders of the inputs of `tx` and
everything that depends on them. -/
theorem removeConflicts_less (hT : CollisionFree env T) {tx : CTransaction}
    (hrep : Represented env pool) (hin : Within T pool) (htx : T tx) :
    ∃ pool', removeConflicts env pool tx = .ok pool' ∧ Less env pool
      (fun h => ∃ txin ∈ tx.vin, pool.Below (· ≠ tx.getHash env) txin.prevout h) pool' := by
  have hstep : ∀ txin ∈ tx.vin, ∀ gone pool', Closed pool.Spends gone → Less env pool gone pool' →
      ∃ pool'', removeConflict env tx pool' txin = .ok pool'' ∧ Less env pool (fun h => gone h ∨
        pool.Below (· ≠ tx.getHash env) txin.prevout h) pool'' := by
    intro txin _ gone pool' hclosed hless
    refine withSpender_less (f := fun pool c => if c = tx then pure pool
      else remove env (pool.mapTx.size + 1) pool c true) hrep hclosed hless fun p c _ hc => ?_
    have hkey := hless.represented.keyed _ _ hc
    have hcT := hless.within hin _ _ hc
    by_cases heq : c = tx
    · refine ⟨pool', if_pos heq, hless.represented.less_refl.congr fun a t _ => ⟨nofun, ?_⟩⟩
      rintro ⟨hne, -⟩
      exact hne (by rw [← hkey, heq])
    · obtain ⟨pool'', hrun, hless'⟩ := remove_size_less hT hless.represented (hless.within hin) hcT
      refine ⟨pool'', (if_neg heq).trans hrun, hless'.congr fun a t _ => ?_⟩
      have hne : p.ptx ≠ tx.getHash env := fun h => heq (hT.injective c tx hcT htx (hkey.trans h))
      rw [hkey, and_iff_right hne]
  obtain ⟨pool', hrun, hless⟩ := foldlM_less (fun txin => closed_below pool _ _) hstep
    (fun _ _ h _ => h) hrep.less_refl
  exact ⟨pool', hrun, hless.congr fun a t _ => by rw [false_or]⟩

/-! ## Admission -/

theorem noConflict_of_checks {tx : CTransaction} (hloose : tx.acceptLoose env = .ok ())
    (hfresh : (!pool.mapTx.contains (tx.getHash env)) = true)
    (hunspent : (tx.vin.all fun txin => !pool.mapNextTx.contains txin.prevout) = true) :
    NoConflict env pool tx := by
  refine ⟨?_, fun txin htxin => ?_, ?_⟩
  · rw [Bool.not_eq_true', Map.contains_eq_false_iff] at hfresh
    exact hfresh
  · have hnone := List.all_eq_true.mp hunspent txin htxin
    rw [Bool.not_eq_true', Map.contains_eq_false_iff] at hnone
    exact hnone
  · unfold CTransaction.acceptLoose at hloose
    obtain ⟨_, hcheck, -⟩ := except_bind_eq_ok.mp hloose
    exact (CTransaction.checkTransaction_ok (mapError_eq_ok.mp hcheck)).nodup_prevouts

/-- `accept` adds a transaction without a conflict. -/
theorem acceptToMemoryPool_ok {tx : CTransaction} {fCheckInputs : Bool} {w w' : World}
    (h : tx.acceptToMemoryPool env fCheckInputs w = .ok () w') :
    NoConflict env w.node.mempool tx ∧
      w'.node.mempool = w.node.mempool.addUnchecked (tx.getHash env) tx := by
  obtain ⟨_, hloose, h⟩ := fromExcept_bind_eq_ok.mp h
  rw [getNode_bind] at h
  obtain ⟨hfresh, h⟩ := require_bind_eq_ok.mp h
  obtain ⟨-, h⟩ := require_bind_eq_ok.mp h
  obtain ⟨hunspent, h⟩ := require_bind_eq_ok.mp h
  obtain ⟨_, w₁, hinputs, h⟩ := bind_eq_ok.mp h
  have hreads : Reads (if fCheckInputs then tx.acceptInputs env else pure ()) :=
    Keeps.ite (Reads.acceptInputs env tx) (Reads.pure _)
  have hsame := hreads.ok hinputs
  obtain ⟨-, rfl⟩ := EStateM.Result.ok.inj h
  exact ⟨noConflict_of_checks hloose hfresh hunspent, by rw [hsame.node]⟩

/-- `accept` leaves the node alone when it fails. -/
theorem acceptToMemoryPool_failsClean (env : Env) (tx : CTransaction) (fCheckInputs : Bool) :
    FailsClean (tx.acceptToMemoryPool env fCheckInputs) :=
  .bind (Keeps.fromExcept _) fun _ => .bind Reads.getNode fun _ => .bind (Reads.require _ _) fun _ =>
    .bind (Reads.require _ _) fun _ => .bind (Reads.require _ _) fun _ =>
      .bind (Keeps.ite (Reads.acceptInputs env tx) (Reads.pure _)) fun _ => .modifyNode _

/-! ## Runs -/

/-- The pools after any sequence of calls with transactions of `T`; `addUnchecked` is called for
transactions without a conflict. -/
inductive PoolRuns (env : Env) (T : CTransaction → Prop) : CTxMemPool → Prop where
  | clear : PoolRuns env T CTxMemPool.clear
  | accept {tx : CTransaction} {fCheckInputs : Bool} {w : World}
      (h : PoolRuns env T w.node.mempool) (htx : T tx) :
      PoolRuns env T (endState (tx.acceptToMemoryPool env fCheckInputs w)).node.mempool
  | addUnchecked {pool : CTxMemPool} {tx : CTransaction} (h : PoolRuns env T pool) (htx : T tx)
      (hno : NoConflict env pool tx) : PoolRuns env T (pool.addUnchecked (tx.getHash env) tx)
  | remove {pool pool' : CTxMemPool} {tx : CTransaction} {fRecursive : Bool}
      (h : PoolRuns env T pool) (htx : T tx)
      (hrun : remove env (pool.mapTx.size + 1) pool tx fRecursive = .ok pool') :
      PoolRuns env T pool'
  | removeConflicts {pool pool' : CTxMemPool} {tx : CTransaction} (h : PoolRuns env T pool)
      (htx : T tx) (hrun : removeConflicts env pool tx = .ok pool') : PoolRuns env T pool'

theorem addUnchecked_within {tx : CTransaction} (hin : Within T pool) (htx : T tx) :
    Within T (pool.addUnchecked (tx.getHash env) tx) := by
  intro a t ha
  change (pool.mapTx.insert _ tx)[a]? = some t at ha
  rw [Map.getElem?_insert] at ha
  split at ha
  · exact Option.some.inj ha ▸ htx
  · exact hin a t ha

theorem remove_false_less (hT : CollisionFree env T) (fuel : Nat) {tx : CTransaction}
    (hrep : Represented env pool) (hin : Within T pool) (htx : T tx) :
    ∃ pool', remove env (fuel + 1) pool tx false = .ok pool' ∧
      Less env pool (fun h => h = tx.getHash env) pool' := by
  cases hmem : pool.mapTx.contains (tx.getHash env) with
  | false =>
    have hnone := (Map.contains_eq_false_iff _ _).mp hmem
    refine ⟨pool, remove_of_notMem hmem, hrep.less_refl.congr fun a t ha => ⟨False.elim, ?_⟩⟩
    rintro rfl
    rw [hnone] at ha
    exact absurd ha (by simp)
  | true =>
    obtain ⟨t, ht⟩ := (Map.contains_iff _ _).mp hmem
    obtain rfl := eq_of_getHash hT hrep hin htx ht
    exact ⟨_, remove_false_of_mem hmem, eraseTx_less hrep ht⟩

theorem PoolRuns.represented (hT : CollisionFree env T) (h : PoolRuns env T pool) :
    Represented env pool ∧ Within T pool := by
  induction h with
  | clear =>
    refine ⟨⟨fun a tx ha => ?_, fun o p => ?_⟩, fun a tx ha => ?_⟩
    · exact absurd ha (by simp [CTxMemPool.clear])
    · simp [CTxMemPool.clear]
    · exact absurd ha (by simp [CTxMemPool.clear])
  | @accept tx fCheckInputs w _ htx ih =>
    cases hrun : tx.acceptToMemoryPool env fCheckInputs w with
    | ok u w' =>
      obtain ⟨hno, hpool⟩ := acceptToMemoryPool_ok hrun
      show Represented env w'.node.mempool ∧ Within T w'.node.mempool
      rw [hpool]
      exact ⟨addUnchecked_represented ih.1 hno, addUnchecked_within ih.2 htx⟩
    | error e w' =>
      show Represented env w'.node.mempool ∧ Within T w'.node.mempool
      rw [(acceptToMemoryPool_failsClean env tx fCheckInputs w e w' hrun).node]
      exact ih
  | addUnchecked _ htx hno ih =>
    exact ⟨addUnchecked_represented ih.1 hno, addUnchecked_within ih.2 htx⟩
  | @remove pool pool' tx fRecursive _ htx hrun ih =>
    cases fRecursive with
    | false =>
      obtain ⟨pool₁, hrun₁, hless⟩ := remove_false_less hT pool.mapTx.size ih.1 ih.2 htx
      obtain rfl := Except.ok.inj (hrun.symm.trans hrun₁)
      exact ⟨hless.represented, hless.within ih.2⟩
    | true =>
      obtain ⟨pool₁, hrun₁, hless⟩ := remove_size_less hT ih.1 ih.2 htx
      obtain rfl := Except.ok.inj (hrun.symm.trans hrun₁)
      exact ⟨hless.represented, hless.within ih.2⟩
  | removeConflicts _ htx hrun ih =>
    obtain ⟨pool₁, hrun₁, hless⟩ := removeConflicts_less hT ih.1 ih.2 htx
    obtain rfl := Except.ok.inj (hrun.symm.trans hrun₁)
    exact ⟨hless.represented, hless.within ih.2⟩

/-- Another transaction of the pool that spends one of the inputs of `tx`. -/
def Conflicts (pool : CTxMemPool) (tx : CTransaction) (c : Uint256) : Prop :=
  ∃ txc : CTransaction, pool.mapTx[c]? = some txc ∧ txc ≠ tx ∧
    ∃ txin ∈ tx.vin, ∃ txin' ∈ txc.vin, txin'.prevout = txin.prevout

theorem exists_conflict_iff (hT : CollisionFree env T) (hrep : Represented env pool)
    (hin : Within T pool) {tx : CTransaction} (htx : T tx) (x : Uint256) :
    (∃ txin ∈ tx.vin, pool.Below (· ≠ tx.getHash env) txin.prevout x) ↔
      ∃ c, pool.Conflicts tx c ∧ ReflTransGen pool.Spends c x := by
  constructor
  · rintro ⟨txin, hvin, p, hp, hne, hpx⟩
    obtain ⟨txc, htxc, txin', hvin', ho⟩ := hrep.spender hp
    refine ⟨p.ptx, ⟨txc, htxc, fun heq => hne ?_, txin, hvin, txin', hvin', ho⟩, hpx⟩
    rw [← hrep.keyed _ _ htxc, heq]
  · rintro ⟨c, ⟨txc, htxc, hne, txin, hvin, txin', hvin', ho⟩, hcx⟩
    obtain ⟨n, hn⟩ := hrep.next_of_mem htxc hvin'
    refine ⟨txin, hvin, ⟨c, n⟩, ho ▸ hn, fun heq => hne ?_, hcx⟩
    exact hT.injective txc tx (hin c txc htxc) htx ((hrep.keyed c txc htxc).trans heq)

/-- After every sequence of calls `mapNextTx` is the map from the prevouts of the transactions in
`mapTx`, no two of which spend the same output; `remove(tx, true)` ends and takes out `tx`, if it
is there, and all that depends on it through the transactions of the pool;
`removeConflicts(tx)` ends and takes out the other spenders of the inputs of `tx` with all that
depends on them. -/
theorem memPool_represented (hT : CollisionFree env T) (h : PoolRuns env T pool) :
    Represented env pool ∧
    (∀ (a b : Uint256) (txa txb : CTransaction), pool.mapTx[a]? = some txa →
      pool.mapTx[b]? = some txb → ∀ ia ∈ txa.vin, ∀ ib ∈ txb.vin, ia.prevout = ib.prevout → a = b) ∧
    ∀ tx, T tx →
      (∃ pool', remove env (pool.mapTx.size + 1) pool tx true = .ok pool' ∧
        ∀ (a : Uint256) (t : CTransaction), pool'.mapTx[a]? = some t ↔
          pool.mapTx[a]? = some t ∧ ¬ ReflTransGen pool.Spends (tx.getHash env) a) ∧
      ∃ pool', removeConflicts env pool tx = .ok pool' ∧
        ∀ (a : Uint256) (t : CTransaction), pool'.mapTx[a]? = some t ↔
          pool.mapTx[a]? = some t ∧ ¬ ∃ c, pool.Conflicts tx c ∧ ReflTransGen pool.Spends c a := by
  obtain ⟨hrep, hin⟩ := h.represented hT
  refine ⟨hrep, fun a b txa txb ha hb ia hia ib hib heq => hrep.unique ha hb hia hib heq,
    fun tx htx => ⟨?_, ?_⟩⟩
  · obtain ⟨pool', hrun, hless⟩ := remove_size_less hT hrep hin htx
    exact ⟨pool', hrun, hless.mapTx⟩
  · obtain ⟨pool', hrun, hless⟩ := removeConflicts_less hT hrep hin htx
    refine ⟨pool', hrun, fun a t => ?_⟩
    rw [hless.mapTx, exists_conflict_iff hT hrep hin htx]

/-! ## A transaction whose parent is not in the pool -/

/-- A transaction without inputs, and one that spends its output. -/
def parentTx : CTransaction := ⟨1, 0, [], [⟨1, []⟩], 0⟩

def childTx : CTransaction := ⟨1, 0, [⟨⟨parentTx.getHash mainNet, 0⟩, [], 0⟩], [], 0⟩

theorem family_collisionFree : CollisionFree mainNet (fun tx => tx = parentTx ∨ tx = childTx) := by
  have hne : parentTx.getHash mainNet ≠ childTx.getHash mainNet := by decide +kernel
  refine ⟨?_, fun a h => ?_⟩
  · rintro a b (rfl | rfl) (rfl | rfl) heq
    · rfl
    · exact absurd heq hne
    · exact absurd heq.symm hne
    · rfl
  · have hedge : ∀ {a b}, CTransaction.Names mainNet a b → (b = parentTx ∨ b = childTx) →
        b = childTx ∧ a.getHash mainNet = parentTx.getHash mainNet := by
      rintro a b ⟨txin, hvin, hhash⟩ (rfl | rfl)
      · exact absurd hvin List.not_mem_nil
      · rw [List.mem_singleton.mp hvin] at hhash
        exact ⟨rfl, hhash.symm⟩
    obtain ⟨b, ⟨-, hb, hab⟩, -⟩ := TransGen.head'_iff.mp h
    obtain ⟨c, -, ⟨-, ha, hca⟩⟩ := TransGen.tail'_iff.mp h
    have hparent := (hedge hab hb).2
    rw [(hedge hca ha).1] at hparent
    exact hne hparent.symm

theorem childTx_noConflict : NoConflict mainNet clear childTx where
  fresh := Map.getElem?_empty _
  unspent _ _ := Map.getElem?_empty _
  nodup := List.nodup_singleton _

/-- The pool of a child whose parent is in the chain. -/
theorem memPool_represented_child :
    Represented mainNet (clear.addUnchecked (childTx.getHash mainNet) childTx) :=
  (memPool_represented family_collisionFree
    (.addUnchecked .clear (.inr rfl) childTx_noConflict)).1

/-- `remove` does nothing for a transaction that is not in the pool, whatever depends on it. -/
theorem not_memPool_removed : ¬ ∀ (env : Env) (T : CTransaction → Prop) (pool pool' : CTxMemPool)
    (tx b : CTransaction), CollisionFree env T → PoolRuns env T pool → T tx →
      remove env (pool.mapTx.size + 1) pool tx true = .ok pool' →
      pool.mapTx[b.getHash env]? = some b →
      (∃ txin ∈ b.vin, txin.prevout.hash = tx.getHash env ∧ txin.prevout.n < tx.vout.length) →
      pool'.mapTx[b.getHash env]? = none := by
  intro hremoved
  have hmem : (clear.addUnchecked (childTx.getHash mainNet) childTx).mapTx[childTx.getHash mainNet]?
      = some childTx := by
    show ((∅ : Map Uint256 CTransaction).insert _ childTx)[childTx.getHash mainNet]? = _
    rw [Map.getElem?_insert, if_pos rfl]
  have habsent : (clear.addUnchecked (childTx.getHash mainNet) childTx).mapTx.contains
      (parentTx.getHash mainNet) = false := by decide +kernel
  have hnone := hremoved mainNet (fun tx => tx = parentTx ∨ tx = childTx) _ _ parentTx childTx
    family_collisionFree (.addUnchecked .clear (.inr rfl) childTx_noConflict) (.inl rfl)
    (remove_of_notMem habsent) hmem ⟨_, List.mem_singleton_self _, rfl, by decide⟩
  rw [hmem] at hnone
  exact absurd hnone (by simp)

end CTxMemPool

end NoLimitCoin
