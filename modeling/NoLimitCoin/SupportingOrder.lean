import NoLimitCoin.SupportingTransactions

/-!
# The order of supporting transactions

`AcceptWalletTransaction` says of `vtxPrev` that previous supporting transactions come first, and
`AddSupportingTransactions` turns its list around for that.  A breadth-first order that is turned
around has the parents first where no ancestor is met before a transaction that spends it.

Results:
1. `agrees_visit`: a turn of the loop goes on with the search of the ancestors, unless it passes by
   an ancestor that only a wallet transaction met later was stored with.
2. `addSupportingTransactions_ordered_iff`: when the list has every ancestor, and parents first.
3. `reversedParents_unordered`: two inputs, of which the second spends the first.
-/

namespace NoLimitCoin

open Prog NodeM BreadthFirst SupportedTx

/-- `tx` spends an output of `tx'`. -/
def SpendsOutputOf (env : Env) (tx tx' : CTransaction) : Prop := tx'.getHash env ∈ inputHashes tx

/-- Each transaction of a list stands behind those of the list that it spends outputs of. -/
structure ParentsFirst (env : Env) (txs : List CTransaction) : Prop where
  pairwise : txs.Pairwise fun tx tx' => ¬ SpendsOutputOf env tx tx'
  self : ∀ tx ∈ txs, ¬ SpendsOutputOf env tx tx

theorem ParentsFirst.sublist {env : Env} {txs txs' : List CTransaction}
    (h : ParentsFirst env txs) (hsub : txs'.Sublist txs) : ParentsFirst env txs' :=
  ⟨h.pairwise.sublist hsub, fun tx htx => h.self tx (hsub.subset htx)⟩

namespace SupportedTx

variable {env : Env}

/-- The transactions that are tried come in the order of the list. -/
theorem acceptSupporting_sublist {fCheckInputs : Bool} {l : List CMerkleTx} {w w' : World}
    {tried : List CTransaction} {r : Except Exit Unit}
    (h : acceptSupporting env fCheckInputs l w = .ok (tried, r) w') :
    tried.Sublist (l.map CMerkleTx.tx) := by
  induction l generalizing w tried r with
  | nil =>
    obtain ⟨heq, -⟩ := pure_eq_ok.mp h
    obtain ⟨rfl, -⟩ := Prod.mk.inj heq
    exact .slnil
  | cons mtx l ih =>
    rw [acceptSupporting, getNode_bind] at h
    dsimp only at h
    split at h
    · exact (ih h).cons _
    · obtain ⟨outcome, w₁, -, h⟩ := bind_eq_ok.mp h
      split at h
      · obtain ⟨heq, -⟩ := pure_eq_ok.mp h
        obtain ⟨rfl, -⟩ := Prod.mk.inj heq
        exact (List.nil_sublist _).cons_cons _
      · obtain ⟨⟨rest, r'⟩, w₂, hrest, h⟩ := bind_eq_ok.mp h
        obtain ⟨heq, rfl⟩ := pure_eq_ok.mp h
        obtain ⟨rfl, -⟩ := Prod.mk.inj heq
        exact (ih hrest).cons_cons _

theorem relaySupporting_sublist (txdb : TxDB) (l : List CMerkleTx) :
    (relaySupporting env txdb l).Sublist (l.map CMerkleTx.tx) := List.filter_sublist

end SupportedTx

namespace Sources

variable {env : Env} (src : Sources env) (roots : List Uint256)

/-! ## Ancestors -/

/-- The transaction of a hash in the wallet or on the disk. -/
def direct (hash : Uint256) : Option CTransaction :=
  match src.mapWallet[hash]? with
  | some wtx => some wtx.tx
  | none => src.world.node.diskTx hash

/-- The wallet transaction `g` was stored with `tx` as a supporting transaction. -/
def Lists (g : Uint256) (tx : CTransaction) : Prop :=
  ∃ wtx, src.mapWallet[g]? = some wtx ∧ ∃ mtx ∈ wtx.vtxPrev, mtx.tx = tx

/-- The hashes that can be reached from the roots through transactions with fewer than three
confirmations: of the wallet, of the disk, and of what a wallet transaction that was reached was
stored with. -/
inductive Reached : Uint256 → Prop
  | root {hash : Uint256} (h : hash ∈ roots) : Reached hash
  | direct {hash next : Uint256} {tx : CTransaction} (h : Reached hash)
      (htx : src.direct hash = some tx) (hnext : next ∈ src.leadsTo tx) : Reached next
  | listed {g next : Uint256} {tx : CTransaction} (hg : Reached g) (htx : src.Lists g tx)
      (h : Reached (tx.getHash env)) (hnext : next ∈ src.leadsTo tx) : Reached next

/-- The transactions that are known for a hash. -/
inductive Supplied : Uint256 → CTransaction → Prop
  | direct {hash : Uint256} {tx : CTransaction} (htx : src.direct hash = some tx) :
      Supplied hash tx
  | listed {g : Uint256} {tx : CTransaction} (hg : src.Reached roots g)
      (htx : src.Lists g tx) : Supplied (tx.getHash env) tx

/-- A known ancestor. -/
def Ancestor (tx : CTransaction) : Prop :=
  src.Reached roots (tx.getHash env) ∧ src.Supplied roots (tx.getHash env) tx

open Classical in
/-- The hashes that the transaction of a hash leads to. -/
noncomputable def inputsOf (hash : Uint256) : List Uint256 :=
  if h : ∃ tx, src.Supplied roots hash tx then src.leadsTo h.choose else []

/-- A breadth-first walk over the ancestors meets `a` before `b`. -/
def MetBefore (a b : Uint256) : Prop := Before roots (src.inputsOf roots) a b

/-- A breadth-first walk meets the ancestors in a good order: one that is only known from what
wallet transactions were stored with after such a wallet transaction, and each before those that it
spends outputs of. -/
structure MetInOrder : Prop where
  supplier : ∀ tx, src.Ancestor roots tx → src.direct (tx.getHash env) = none →
    ∃ g, src.Lists g tx ∧ src.MetBefore roots g (tx.getHash env)
  spender : ∀ tx tx', src.Ancestor roots tx → src.Ancestor roots tx' → SpendsOutputOf env tx tx' →
    src.MetBefore roots (tx.getHash env) (tx'.getHash env)

/-- The list has every known ancestor once, and parents first, and those who walk it try a
transaction after those that it spends outputs of. -/
structure DependencyOrder (l : List CMerkleTx) : Prop where
  once : (l.map fun mtx => mtx.tx.getHash env).Nodup
  complete : ∀ tx, tx ∈ l.map CMerkleTx.tx ↔ src.Ancestor roots tx
  parentsFirst : ParentsFirst env (l.map CMerkleTx.tx)
  accepted : ∀ fCheckInputs w tried r w',
    acceptSupporting env fCheckInputs l w = .ok (tried, r) w' → ParentsFirst env tried
  relayed : ∀ txdb, ParentsFirst env (relaySupporting env txdb l)

variable {src roots} {hash : Uint256} {tx tx' : CTransaction}

theorem hash_of_direct (h : src.direct hash = some tx) :
    tx.getHash env = hash ∧ Offered env src.mapWallet src.world.node tx := by
  rw [Sources.direct] at h
  cases hwallet : src.mapWallet[hash]? with
  | some wtx =>
    rw [hwallet] at h
    obtain rfl := Option.some.inj h
    exact ⟨src.wallet_hash hash wtx hwallet, .wallet hwallet⟩
  | none =>
    rw [hwallet] at h
    exact ⟨src.disk_hash hash tx h, .disk h⟩

theorem Supplied.offered (h : src.Supplied roots hash tx) :
    tx.getHash env = hash ∧ Offered env src.mapWallet src.world.node tx := by
  cases h with
  | direct htx => exact hash_of_direct htx
  | listed _ htx =>
    obtain ⟨wtx, hwallet, mtx, hmem, rfl⟩ := htx
    exact ⟨rfl, .listed hwallet hmem⟩

theorem Supplied.unique (h : src.Supplied roots hash tx) (h' : src.Supplied roots hash tx') :
    tx = tx' :=
  src.unique tx tx' h.offered.2 h'.offered.2 (h.offered.1.trans h'.offered.1.symm)

theorem inputsOf_supplied (h : src.Supplied roots hash tx) :
    src.inputsOf roots hash = src.leadsTo tx := by
  have hex : ∃ tx, src.Supplied roots hash tx := ⟨tx, h⟩
  rw [inputsOf, dif_pos hex, hex.choose_spec.unique h]

theorem inputsOf_unknown (h : ¬ ∃ tx, src.Supplied roots hash tx) :
    src.inputsOf roots hash = [] := by
  rw [inputsOf, dif_neg h]

/-- The hashes that are reached are those that the search reaches. -/
theorem reachable_iff : Reachable roots (src.inputsOf roots) hash ↔ src.Reached roots hash := by
  constructor
  · rintro ⟨p, hp⟩
    induction hp with
    | root h => exact .root (List.mem_of_getElem? h)
    | @step p v next j _ h ih =>
      have hnext := List.mem_of_getElem? h
      by_cases hv : ∃ tx, src.Supplied roots v tx
      · obtain ⟨tx, htx⟩ := hv
        rw [inputsOf_supplied htx] at hnext
        cases htx with
        | direct htx => exact .direct ih htx hnext
        | listed hg htx => exact .listed hg htx ih hnext
      · rw [inputsOf_unknown hv] at hnext
        exact absurd hnext List.not_mem_nil
  · have hstep : ∀ {v next tx}, Reachable roots (src.inputsOf roots) v →
        src.Supplied roots v tx → next ∈ src.leadsTo tx →
        Reachable roots (src.inputsOf roots) next := by
      rintro v next tx ⟨p, hp⟩ htx hnext
      rw [← inputsOf_supplied htx] at hnext
      obtain ⟨j, hj⟩ := List.mem_iff_getElem?.mp hnext
      exact ⟨_, hp.step hj⟩
    intro h
    induction h with
    | root h =>
      obtain ⟨i, hi⟩ := List.mem_iff_getElem?.mp h
      exact ⟨_, .root hi⟩
    | direct _ htx hnext ih => exact hstep ih (.direct htx) hnext
    | listed hg htx _ hnext _ ih => exact hstep ih (.listed hg htx) hnext

/-! ## The loop and the search -/

variable {s : SupportState} {done queue : List Uint256}

/-- What the loop has while it has passed by no ancestor. -/
structure Agrees (src : Sources env) (roots done : List Uint256) (s : SupportState) : Prop where
  keyed : src.Keyed s
  prev : ∀ (hash : Uint256) (mtx : CMerkleTx), s.mapWalletPrev[hash]? = some mtx →
    ∃ g ∈ done, src.Lists g mtx.tx
  prev_mem : ∀ g ∈ done, ∀ tx, src.Lists g tx →
    ∃ mtx, s.mapWalletPrev[tx.getHash env]? = some mtx
  sublist : (s.vtxPrev.map fun mtx => mtx.tx.getHash env).Sublist done
  supplied : ∀ mtx ∈ s.vtxPrev, src.Supplied roots (mtx.tx.getHash env) mtx.tx
  kept : ∀ hash ∈ done, ∀ tx, src.Supplied roots hash tx →
    hash ∈ s.vtxPrev.map fun mtx => mtx.tx.getHash env
  fed : ∀ hash ∈ done, ∀ tx, src.Supplied roots hash tx → src.direct hash = none →
    ∃ g, src.Lists g tx ∧ src.MetBefore roots g hash

theorem agrees_init : src.Agrees roots [] ⟨∅, []⟩ where
  keyed := src.keyed_init
  prev := fun hash mtx h => absurd h (by simp)
  prev_mem := fun g hg => absurd hg List.not_mem_nil
  sublist := .slnil
  supplied := fun mtx h => absurd h List.not_mem_nil
  kept := fun hash h => absurd h List.not_mem_nil
  fed := fun hash h => absurd h List.not_mem_nil

theorem lookup_cases {m : Map Uint256 CMerkleTx} {mtx : CMerkleTx}
    (h : src.lookup m hash = some mtx) :
    src.direct hash = some mtx.tx ∨ m[hash]? = some mtx := by
  rw [lookup] at h
  rw [Sources.direct]
  cases hwallet : src.mapWallet[hash]? with
  | some wtx =>
    rw [hwallet] at h
    obtain rfl := Option.some.inj h
    exact .inl rfl
  | none =>
    rw [hwallet] at h
    cases hprev : m[hash]? with
    | some prev =>
      rw [hprev] at h
      exact .inr h
    | none =>
      rw [hprev] at h
      obtain ⟨tx, hdisk, rfl⟩ := Option.map_eq_some_iff.mp h
      exact .inl hdisk

theorem lookup_eq_none {m : Map Uint256 CMerkleTx} (h : src.lookup m hash = none) :
    src.mapWallet[hash]? = none ∧ src.direct hash = none ∧ m[hash]? = none := by
  rw [lookup] at h
  rw [Sources.direct]
  cases hwallet : src.mapWallet[hash]? with
  | some wtx => simp [hwallet] at h
  | none =>
    rw [hwallet] at h
    cases hprev : m[hash]? with
    | some prev => simp [hprev] at h
    | none =>
      rw [hprev] at h
      exact ⟨rfl, Option.map_eq_none_iff.mp h, rfl⟩

/-- A turn of the loop goes on with the search, unless it passes by an ancestor. -/
theorem agrees_visit (hsearch : Search roots (src.inputsOf roots) done (hash :: queue))
    (h : src.Agrees roots done s) (hdone : hash ∉ done) :
    ((src.visit hash s).2 = src.inputsOf roots hash ∧
        src.Agrees roots (done ++ [hash]) (src.visit hash s).1) ∨
      (src.lookup s.mapWalletPrev hash = none ∧ ∃ tx, src.Supplied roots hash tx) := by
  have hreached : ∀ g ∈ done, src.Reached roots g := fun g hg =>
    reachable_iff.mp (hsearch.reachable hg)
  have hbefore : ∀ g ∈ done, src.MetBefore roots g hash := fun g hg =>
    (List.pairwise_append.mp (hsearch.push hdone).pairwise_before).2.2 g hg hash
      (List.mem_singleton_self hash)
  rcases (src.supportStep_cases hash s).2 with ⟨hnone, hvisit⟩ | ⟨mtx, mtx', hsome, hsame, hvisit⟩
  · by_cases hknown : ∃ tx, src.Supplied roots hash tx
    · exact .inr ⟨hnone, hknown⟩
    refine .inl ⟨by rw [hvisit, inputsOf_unknown hknown], ?_⟩
    rw [hvisit]
    exact {
      keyed := h.keyed
      prev := fun hash' mtx hmtx => by
        obtain ⟨g, hg, hlists⟩ := h.prev hash' mtx hmtx
        exact ⟨g, List.mem_append_left _ hg, hlists⟩
      prev_mem := fun g hg tx htx => by
        rcases List.mem_append.mp hg with hg | hg
        · exact h.prev_mem g hg tx htx
        · obtain rfl := List.mem_singleton.mp hg
          obtain ⟨wtx, hwallet, -⟩ := htx
          exact absurd ((lookup_eq_none hnone).1.symm.trans hwallet) nofun
      sublist := h.sublist.trans (List.sublist_append_left _ _)
      supplied := h.supplied
      kept := fun hash' hmem tx htx => by
        rcases List.mem_append.mp hmem with hmem | hmem
        · exact h.kept hash' hmem tx htx
        · exact absurd ⟨tx, List.mem_singleton.mp hmem ▸ htx⟩ hknown
      fed := fun hash' hmem tx htx => by
        rcases List.mem_append.mp hmem with hmem | hmem
        · exact h.fed hash' hmem tx htx
        · exact absurd ⟨tx, List.mem_singleton.mp hmem ▸ htx⟩ hknown }
  · have hhash : mtx.tx.getHash env = hash := (lookup_hash h.keyed hsome).1
    have hfrom : src.direct hash = some mtx.tx ∨ ∃ g ∈ done, src.Lists g mtx.tx :=
      (lookup_cases hsome).imp_right (h.prev hash mtx)
    have hsupplied : src.Supplied roots hash mtx.tx := by
      rcases hfrom with hdirect | ⟨g, hg, hlists⟩
      · exact .direct hdirect
      · exact hhash ▸ .listed (hreached g hg) hlists
    refine .inl ⟨by rw [hvisit, inputsOf_supplied hsupplied], ?_⟩
    have hkeyed := h.keyed.visit hash
    rw [hvisit] at hkeyed ⊢
    have hvtx : (s.vtxPrev ++ [mtx']).map (fun mtx => mtx.tx.getHash env) =
        s.vtxPrev.map (fun mtx => mtx.tx.getHash env) ++ [hash] := by
      rw [List.map_append, List.map_cons, hsame, hhash, List.map_nil]
    exact {
      keyed := hkeyed
      prev := fun hash' found hfound => by
        rcases src.nextPrev_eq_some hfound with ⟨wtx, hwallet, hmem, -⟩ | hold
        · exact ⟨hash, by simp, wtx, hwallet, found, hmem, rfl⟩
        · obtain ⟨g, hg, hlists⟩ := h.prev hash' found hold
          exact ⟨g, List.mem_append_left _ hg, hlists⟩
      prev_mem := fun g hg tx htx => by
        refine src.exists_nextPrev ?_
        rcases List.mem_append.mp hg with hg | hg
        · exact .inr (h.prev_mem g hg tx htx)
        · obtain rfl := List.mem_singleton.mp hg
          obtain ⟨wtx, hwallet, listed, hmem, rfl⟩ := htx
          exact .inl ⟨wtx, hwallet, listed, hmem, rfl⟩
      sublist := by
        rw [hvtx]
        exact h.sublist.append (List.Sublist.refl _)
      supplied := fun found hfound => by
        rcases List.mem_append.mp hfound with hfound | hfound
        · exact h.supplied found hfound
        · rw [List.mem_singleton.mp hfound, hsame, hhash]
          exact hsupplied
      kept := fun hash' hmem tx htx => by
        rw [hvtx]
        rcases List.mem_append.mp hmem with hmem | hmem
        · exact List.mem_append_left _ (h.kept hash' hmem tx htx)
        · exact List.mem_append_right _ hmem
      fed := fun hash' hmem tx htx hdirect => by
        rcases List.mem_append.mp hmem with hmem | hmem
        · exact h.fed hash' hmem tx htx hdirect
        · obtain rfl := List.mem_singleton.mp hmem
          rcases hfrom with hsome | ⟨g, hg, hlists⟩
          · exact absurd (hdirect.symm.trans hsome) nofun
          · exact ⟨g, hsupplied.unique htx ▸ hlists, hbefore g hg⟩ }

/-- The loop has been at `hash` and has not put a transaction of it into the list. -/
def PassedBy (src : Sources env) (hash : Uint256) (done : List Uint256) (s : SupportState) : Prop :=
  src.Keyed s ∧ hash ∈ done ∧ ∀ mtx ∈ s.vtxPrev, mtx.tx.getHash env ≠ hash

/-- An ancestor that the loop has passed by does not enter the list later. -/
theorem PassedBy.run {fuel : Nat} {order : List Uint256} {s' : SupportState}
    (h : src.PassedBy hash done s)
    (hrun : worklist src.visit fuel done queue s = some (order, s')) :
    src.PassedBy hash order s' := by
  refine worklist_inv ?_ h hrun
  rintro done next s hnext ⟨hs, hdone, habsent⟩
  refine ⟨hs.visit next, List.mem_append_left _ hdone, ?_⟩
  rcases (src.supportStep_cases next s).2 with ⟨-, h⟩ | ⟨mtx, mtx', hsome, hsame, h⟩
  · rw [h]
    exact habsent
  · rw [h]
    intro found hfound
    rcases List.mem_append.mp hfound with hfound | hfound
    · exact habsent found hfound
    · rw [List.mem_singleton.mp hfound, hsame, (lookup_hash hs hsome).1]
      exact fun heq => hnext (heq ▸ hdone)

/-- A loop that has passed by no ancestor has them all, in the order of the search. -/
theorem Agrees.ancestor_iff {order : List Uint256} (h : src.Agrees roots order s)
    (hsearch : Search roots (src.inputsOf roots) order []) :
    tx ∈ s.vtxPrev.map CMerkleTx.tx ↔ src.Ancestor roots tx := by
  constructor
  · intro hmem
    obtain ⟨mtx, hmtx, rfl⟩ := List.mem_map.mp hmem
    have horder := h.sublist.subset (List.mem_map_of_mem hmtx)
    exact ⟨reachable_iff.mp (hsearch.mem_iff.mp horder), h.supplied mtx hmtx⟩
  · rintro ⟨hreached, hsupplied⟩
    have horder := hsearch.mem_iff.mpr (reachable_iff.mpr hreached)
    obtain ⟨mtx, hmtx, hhash⟩ := List.mem_map.mp (h.kept _ horder tx hsupplied)
    have hmtx' := h.supplied mtx hmtx
    rw [hhash] at hmtx'
    exact List.mem_map.mpr ⟨mtx, hmtx, hmtx'.unique hsupplied⟩

/-- The list turned around has parents first where the search meets them last. -/
theorem parentsFirst_iff {l : List CTransaction}
    (hpairwise : l.Pairwise fun tx tx' =>
      src.MetBefore roots (tx.getHash env) (tx'.getHash env)) :
    ParentsFirst env l.reverse ↔ ∀ tx ∈ l, ∀ tx' ∈ l, SpendsOutputOf env tx tx' →
      src.MetBefore roots (tx.getHash env) (tx'.getHash env) := by
  constructor
  · intro h tx htx tx' htx' hspends
    have hne : tx ≠ tx' := by
      rintro rfl
      exact h.self tx (List.mem_reverse.mpr htx) hspends
    have hall : l.Pairwise fun a b =>
        src.MetBefore roots (a.getHash env) (b.getHash env) ∧ ¬ SpendsOutputOf env b a :=
      hpairwise.and (List.pairwise_reverse.mp h.pairwise)
    -- of two transactions the one that stands first in `l` is met first and not spent by the other
    let Good (a b : CTransaction) : Prop :=
      SpendsOutputOf env a b → src.MetBefore roots (a.getHash env) (b.getHash env)
    have hgood : l.Pairwise fun a b => Good a b ∧ Good b a :=
      hall.imp fun hab => ⟨fun _ => hab.1, fun hba => absurd hba hab.2⟩
    have : Std.Symm fun a b => Good a b ∧ Good b a := ⟨fun _ _ hab => ⟨hab.2, hab.1⟩⟩
    exact (hgood.forall htx htx' hne).1 hspends
  · intro h
    refine ⟨List.pairwise_reverse.mpr (List.Pairwise.imp_of_mem ?_ hpairwise), ?_⟩
    · intro a b ha hb hab hspends
      exact hab.asymm (h b hb a ha hspends)
    · intro tx htx hspends
      have hmem := List.mem_reverse.mp htx
      exact Before.irrefl (h tx hmem tx hmem hspends)

end Sources

namespace SupportedTx

open Sources

/-- `AddSupportingTransactions` ends, and its list has every known ancestor once, with the parents
before the children, exactly when a breadth-first walk meets the ancestors in a good order. -/
theorem addSupportingTransactions_ordered_iff {env : Env} (src : Sources env) (wtx : SupportedTx) :
    ∃ fuel wtx', (∀ fuel' ≥ fuel, wtx.addSupportingTransactions env src.mapWallet fuel' src.world =
        .ok (some wtx') src.world) ∧ wtx'.tx = wtx.tx ∧
      (src.DependencyOrder (src.leadsTo wtx.tx) wtx'.vtxPrev ↔
        src.MetInOrder (src.leadsTo wtx.tx)) := by
  obtain ⟨mtx, hsame, hrun⟩ := src.addSupportingTransactions_run wtx
  obtain ⟨fuel, ⟨order, s⟩, hwalk⟩ := loop_terminates src.keyed_init [] (src.leadsTo wtx.tx)
  refine ⟨fuel, ⟨mtx, s.vtxPrev.reverse⟩, fun fuel' hfuel => ?_, hsame, ?_⟩
  · rw [hrun, hwalk fuel' hfuel]
    rfl
  have hsearch₀ : Search (src.leadsTo wtx.tx) (src.inputsOf (src.leadsTo wtx.tx)) []
    (src.leadsTo wtx.tx) := .init
  have hagrees₀ : src.Agrees (src.leadsTo wtx.tx) [] ⟨∅, []⟩ := agrees_init
  rcases worklist_search hsearch₀ hagrees₀ (hwalk fuel le_rfl) with ⟨hsearch, hagrees⟩ |
    ⟨fuel₁, done, hash, queue, s₁, hsearch, hagrees, hdone, hbad, hrest⟩
  · have hmet : (s.vtxPrev.map CMerkleTx.tx).Pairwise fun tx tx' =>
        src.MetBefore (src.leadsTo wtx.tx) (tx.getHash env) (tx'.getHash env) := by
      have h := hsearch.pairwise_before.sublist hagrees.sublist
      rw [List.pairwise_map] at h ⊢
      exact h
    have hmem : ∀ tx, tx ∈ s.vtxPrev.map CMerkleTx.tx ↔ src.Ancestor (src.leadsTo wtx.tx) tx :=
      fun tx => hagrees.ancestor_iff hsearch
    have hiff := parentsFirst_iff hmet
    rw [← List.map_reverse] at hiff
    constructor
    · intro h
      refine ⟨fun tx htx hdirect => ?_, fun tx tx' htx htx' => ?_⟩
      · exact hagrees.fed _ (hsearch.mem_iff.mpr (reachable_iff.mpr htx.1)) tx htx.2 hdirect
      · exact hiff.mp h.parentsFirst tx ((hmem tx).mpr htx) tx' ((hmem tx').mpr htx')
    · intro h
      have hfirst := hiff.mpr fun tx htx tx' htx' =>
        h.spender tx tx' ((hmem tx).mp htx) ((hmem tx').mp htx')
      exact {
        once := by
          rw [List.map_reverse]
          exact List.nodup_reverse.mpr (hsearch.nodup.sublist hagrees.sublist)
        complete := fun tx => by
          rw [List.map_reverse, List.mem_reverse]
          exact hmem tx
        parentsFirst := hfirst
        accepted := fun fCheckInputs w tried r w' h =>
          hfirst.sublist (acceptSupporting_sublist h)
        relayed := fun txdb => hfirst.sublist (relaySupporting_sublist txdb _) }
  · -- the loop has passed by an ancestor, which is neither in the list nor met in time
    obtain ⟨hnone, tx, htx⟩ := (agrees_visit hsearch hagrees hdone).resolve_left hbad
    obtain rfl := htx.offered.1
    have hancestor : src.Ancestor (src.leadsTo wtx.tx) tx :=
      ⟨reachable_iff.mp hsearch.reachable_head, htx⟩
    refine iff_of_false (fun h => ?_) (fun h => ?_)
    · have hvisit : (src.visit (tx.getHash env) s₁).1 = s₁ := by
        rcases (src.supportStep_cases (tx.getHash env) s₁).2 with ⟨-, hv⟩ | ⟨_, _, hsome, -⟩
        · rw [hv]
        · exact absurd (hnone.symm.trans hsome) nofun
      rw [hvisit] at hrest
      have hpassed : src.PassedBy (tx.getHash env) (done ++ [tx.getHash env]) s₁ :=
        ⟨hagrees.keyed, by simp, fun found hfound heq =>
          hdone (hagrees.sublist.subset (List.mem_map.mpr ⟨found, hfound, heq⟩))⟩
      obtain ⟨found, hfound, rfl⟩ := List.mem_map.mp ((h.complete tx).mpr hancestor)
      exact (hpassed.run hrest).2.2 found (List.mem_reverse.mp hfound) rfl
    · obtain ⟨-, hdirect, hprev⟩ := lookup_eq_none hnone
      obtain ⟨g, hlists, hbefore⟩ := h.supplier tx hancestor hdirect
      obtain ⟨found, hfound⟩ := hagrees.prev_mem g (hsearch.mem_of_before hbefore) tx hlists
      exact absurd (hprev.symm.trans hfound) nofun

end SupportedTx

/-! ## Two inputs -/

/-- A transaction of the wallet with two outputs. -/
def parentTx : CTransaction :=
  ⟨1, 1600000000, [⟨⟨5, 0⟩, [], uint32Max⟩], [⟨2 * coin, [0x51]⟩, ⟨3 * coin, [0x51]⟩], 0⟩

/-- Another one, which spends the first of them. -/
def childTx : CTransaction :=
  ⟨1, 1600000001, [⟨⟨parentTx.getHash testNet, 0⟩, [], uint32Max⟩], [⟨coin, [0x51]⟩], 0⟩

/-- A transaction that spends the second one, and the output of the other transaction. -/
def twoInputs : SupportedTx :=
  ⟨.ofTx ⟨1, 1600000002, [⟨⟨parentTx.getHash testNet, 1⟩, [], uint32Max⟩,
    ⟨⟨childTx.getHash testNet, 0⟩, [], uint32Max⟩], [⟨3 * coin, [0x51]⟩], 0⟩, []⟩

/-- A wallet with the two transactions, which are in no block. -/
def twoTransactions : Map Uint256 SupportedTx :=
  ((∅ : Map Uint256 SupportedTx).insert (parentTx.getHash testNet) ⟨.ofTx parentTx, []⟩).insert
    (childTx.getHash testNet) ⟨.ofTx childTx, []⟩

/-- A node with the first block. -/
def firstBlockWorld : World :=
  { idleWorld .clear with
    node := { Node.initial.setIndex hashGenesisBlock
        (CBlockIndex.ofBlock 1 0 (genesisBlock mainNet)) with
      pindexGenesisBlock := some hashGenesisBlock
      pindexBest := some hashGenesisBlock } }

theorem twoTransactions_cases {hash : Uint256} {wtx : SupportedTx}
    (h : twoTransactions[hash]? = some wtx) :
    wtx.vtxPrev = [] ∧ wtx.tx.getHash testNet = hash ∧ (wtx.tx = parentTx ∨ wtx.tx = childTx) := by
  rw [twoTransactions, Map.getElem?_insert, Map.getElem?_insert] at h
  by_cases hchild : childTx.getHash testNet = hash
  · rw [if_pos hchild] at h
    obtain rfl := Option.some.inj h
    exact ⟨rfl, hchild, .inr rfl⟩
  rw [if_neg hchild] at h
  by_cases hparent : parentTx.getHash testNet = hash
  · rw [if_pos hparent] at h
    obtain rfl := Option.some.inj h
    exact ⟨rfl, hparent, .inl rfl⟩
  · rw [if_neg hparent, Map.getElem?_empty] at h
    cases h

theorem firstBlockWorld_diskTx (hash : Uint256) : firstBlockWorld.node.diskTx hash = none := by
  have h : firstBlockWorld.node.txdb.fresh.readTxIndex hash = none := by
    show ((∅ : Map DbKey DbVal)[DbKey.tx hash]?).bind DbVal.txindex? = none
    rw [Map.getElem?_empty]
    rfl
  rw [Node.diskTx, h]
  rfl

theorem offered_twoTransactions {tx : CTransaction}
    (h : Offered testNet twoTransactions firstBlockWorld.node tx) :
    tx = parentTx ∨ tx = childTx := by
  cases h with
  | wallet h => exact (twoTransactions_cases h).2.2
  | listed h hmtx =>
    rw [(twoTransactions_cases h).1] at hmtx
    exact absurd hmtx List.not_mem_nil
  | @disk hash _ h => exact absurd ((firstBlockWorld_diskTx hash).symm.trans h) nofun

def twoSources : Sources testNet where
  mapWallet := twoTransactions
  world := firstBlockWorld
  disk_works := rfl
  best := ⟨hashGenesisBlock, CBlockIndex.ofBlock 1 0 (genesisBlock mainNet), rfl, by
    show (Node.initial.mapBlockIndex.insert hashGenesisBlock _)[hashGenesisBlock]? = _
    rw [Map.getElem?_insert, if_pos rfl]⟩
  wallet_hash := fun _ _ h => (twoTransactions_cases h).2.1
  disk_hash := fun hash _ h => absurd ((firstBlockWorld_diskTx hash).symm.trans h) nofun
  unique := by
    have hne : parentTx.getHash testNet ≠ childTx.getHash testNet := by decide +kernel
    intro tx tx' h h' hhash
    rcases offered_twoTransactions h with rfl | rfl <;>
      rcases offered_twoTransactions h' with rfl | rfl
    · rfl
    · exact absurd hhash hne
    · exact absurd hhash.symm hne
    · rfl

/-- The parent is an input of its own, ahead of the child, so that the list that is turned around
has the child first, and the child is tried before the parent. -/
theorem reversedParents_unordered :
    ∃ wtx' w', twoInputs.addSupportingTransactions testNet twoSources.mapWallet 8
        twoSources.world = .ok (some wtx') w' ∧
      wtx'.vtxPrev.map CMerkleTx.tx = [childTx, parentTx] ∧
      SpendsOutputOf testNet childTx parentTx ∧
      (∃ r w'', acceptSupporting testNet true wtx'.vtxPrev w' =
        .ok ([childTx, parentTx], r) w'') ∧
      ¬ twoSources.DependencyOrder (twoSources.leadsTo twoInputs.tx) wtx'.vtxPrev := by
  have hspends : SpendsOutputOf testNet childTx parentTx := List.mem_singleton_self _
  have hrun : succeeds (fun r w => match r with
      | some wtx' => decide (wtx'.vtxPrev.map CMerkleTx.tx = [childTx, parentTx]) &&
          succeeds (fun tried _ => decide (tried.1 = [childTx, parentTx]))
            (acceptSupporting testNet true wtx'.vtxPrev w)
      | none => false)
      (twoInputs.addSupportingTransactions testNet twoTransactions 8 firstBlockWorld) = true := by
    decide +kernel
  obtain ⟨r, w', hok, hr⟩ := succeeds_iff.mp hrun
  cases r with
  | none => cases hr
  | some wtx' =>
    obtain ⟨hlist, htried⟩ := Bool.and_eq_true_iff.mp hr
    have hlist := of_decide_eq_true hlist
    obtain ⟨⟨tried, r⟩, w'', haccept, htried⟩ := succeeds_iff.mp htried
    obtain rfl : tried = [childTx, parentTx] := of_decide_eq_true htried
    refine ⟨wtx', w', hok, hlist, hspends, ⟨r, w'', haccept⟩, fun h => ?_⟩
    have hfirst := h.parentsFirst.pairwise
    rw [hlist] at hfirst
    exact List.rel_of_pairwise_cons hfirst (List.mem_singleton_self _) hspends

end NoLimitCoin
