import NoLimitCoin.Consistency
import NoLimitCoin.Locator

/-!
# Blocks by height

`FindBlockByHeight` walks to a height of the best chain from the first block, from the best one
or from the block it returned the last time, whichever is closer.

Results:

1. `walkWhile_eq`: a walk along a list of linked blocks ends at the first one that is not too far.
2. `Session.chainRun`: the block of the last call is on the best chain, as long as no postponed
   block fails.
3. `findBlockByHeight_finds`: then every call returns the block of its height.
4. `findBlockByHeight_nullPointer`: where a postponed block has failed, a call crashes.
-/

namespace NoLimitCoin

/-- Why a walk does not return. -/
inductive LookupFault where
  | nullPointer
  | outOfFuel
deriving Repr, DecidableEq

/-- `while (far(pblockindex->nHeight)) pblockindex = next(pblockindex);` -/
def walkWhile (node : Node) (next : CBlockIndex → Option Uint256) (far : Nat → Bool) :
    Nat → Option Uint256 → Except LookupFault Uint256
  | 0, _ => .error .outOfFuel
  | _ + 1, none => .error .nullPointer
  | fuel + 1, some pblockindex =>
    match node.index? pblockindex with
    | none => .error .nullPointer
    | some index =>
      if far index.nHeight then walkWhile node next far fuel (next index) else .ok pblockindex

/-- The object behind a pointer. -/
def objectAt (node : Node) (pindex : Option Uint256) : Except LookupFault CBlockIndex :=
  match pindex.bind node.index? with
  | none => .error .nullPointer
  | some index => .ok index

/-- Where the walks of `FindBlockByHeight` begin. -/
def walkStart (node : Node) (pblockindexFBBHLast : Option Uint256) (nHeight : Int) :
    Except LookupFault (Option Uint256) :=
  let pblockindex :=
    if nHeight < node.nBestHeight.tdiv 2 then node.pindexGenesisBlock else node.pindexBest
  if pblockindexFBBHLast.isSome then do
    let index ← objectAt node pblockindex
    let indexLast ← objectAt node pblockindexFBBHLast
    pure (if |nHeight - index.nHeight| > |nHeight - indexLast.nHeight| then pblockindexFBBHLast
      else pblockindex)
  else pure pblockindex

/-- `FindBlockByHeight`: the block, which it also keeps in `pblockindexFBBHLast`. -/
def findBlockByHeight (node : Node) (pblockindexFBBHLast : Option Uint256) (fuel : Nat)
    (nHeight : Int) : Except LookupFault Uint256 := do
  let pblockindex ← walkStart node pblockindexFBBHLast nHeight
  let pblockindex ←
    walkWhile node CBlockIndex.pprev (fun n => decide ((n : Int) > nHeight)) fuel pblockindex
  walkWhile node CBlockIndex.pnext (fun n => decide ((n : Int) < nHeight)) fuel (some pblockindex)

/-! ## The walks -/

/-- Every block of the list leads to the one after it. -/
def Linked (node : Node) (next : CBlockIndex → Option Uint256) (xs : List Uint256) : Prop :=
  ∀ i p, xs[i]? = some p → ∃ index, node.index? p = some index ∧ next index = xs[i + 1]?

theorem walkWhile_eq {node : Node} {next : CBlockIndex → Option Uint256} {far : Nat → Bool}
    {xs : List Uint256} (hlinked : Linked node next xs) {fuel d i : Nat} {q : Uint256}
    (hfuel : d < fuel) (hq : xs[i + d]? = some q)
    (hfar : ∀ k < d, ∀ p, xs[i + k]? = some p → far (node.heightOf p) = true)
    (hstop : far (node.heightOf q) = false) :
    walkWhile node next far fuel xs[i]? = .ok q := by
  induction d generalizing fuel i with
  | zero =>
    obtain ⟨fuel, rfl⟩ := Nat.exists_eq_add_one_of_ne_zero (Nat.ne_of_gt hfuel)
    obtain ⟨index, hindex, -⟩ := hlinked i q hq
    rw [Node.heightOf, hindex] at hstop
    rw [show xs[i]? = some q from hq, walkWhile, hindex]
    exact if_neg (Bool.eq_false_iff.mp hstop)
  | succ d ih =>
    obtain ⟨fuel, rfl⟩ := Nat.exists_eq_add_one_of_ne_zero (Nat.ne_of_gt (Nat.zero_lt_of_lt hfuel))
    have hlt : i < xs.length := by
      have := (List.getElem?_eq_some_iff.mp hq).1
      omega
    obtain ⟨index, hindex, hnext⟩ := hlinked i _ (List.getElem?_eq_getElem hlt)
    have hfirst : far index.nHeight = true := by
      have h := hfar 0 (Nat.succ_pos d) _ (List.getElem?_eq_getElem hlt)
      rwa [Node.heightOf, hindex] at h
    rw [List.getElem?_eq_getElem hlt, walkWhile, hindex]
    dsimp only
    rw [if_pos hfirst, hnext]
    refine ih (by omega) (by rw [← hq]; congr 1; omega) fun k hk p hp => hfar (k + 1) (by omega) p ?_
    rw [← hp]
    congr 1
    omega

/-- More fuel makes no difference to a walk that returns. -/
theorem walkWhile_mono {node : Node} {next : CBlockIndex → Option Uint256} {far : Nat → Bool}
    {fuel fuel' : Nat} {pindex : Option Uint256} {q : Uint256} (hle : fuel ≤ fuel')
    (h : walkWhile node next far fuel pindex = .ok q) :
    walkWhile node next far fuel' pindex = .ok q := by
  induction fuel generalizing fuel' pindex with
  | zero => exact absurd h nofun
  | succ fuel ih =>
    obtain ⟨fuel', rfl⟩ := Nat.exists_eq_add_one_of_ne_zero (by omega : fuel' ≠ 0)
    cases pindex with
    | none => exact absurd h nofun
    | some p =>
      rw [walkWhile] at h ⊢
      cases hp : node.index? p with
      | none => rw [hp] at h; exact absurd h nofun
      | some index =>
        rw [hp] at h
        dsimp only at h ⊢
        split at h
        · next hfar => rw [if_pos hfar]; exact ih (by omega) h
        · next hfar => rw [if_neg hfar]; exact h

theorem findBlockByHeight_mono {node : Node} {last : Option Uint256} {fuel fuel' : Nat}
    {nHeight : Int} {p : Uint256} (h : findBlockByHeight node last fuel nHeight = .ok p)
    (hle : fuel ≤ fuel') : findBlockByHeight node last fuel' nHeight = .ok p := by
  unfold findBlockByHeight at h ⊢
  cases hstart : walkStart node last nHeight with
  | error e => rw [hstart] at h; exact absurd h nofun
  | ok start =>
    rw [hstart] at h
    change (walkWhile _ _ _ fuel start >>= fun r => walkWhile _ _ _ fuel (some r)) = _ at h
    show (walkWhile _ _ _ fuel' start >>= fun r => walkWhile _ _ _ fuel' (some r)) = _
    cases hback : walkWhile node CBlockIndex.pprev (fun n => decide ((n : Int) > nHeight)) fuel
        start with
    | error e => rw [hback] at h; exact absurd h nofun
    | ok r =>
      rw [hback] at h
      rw [walkWhile_mono hle hback]
      exact walkWhile_mono hle h

/-! ## The best chain by height -/

theorem IndexInv.heightOf_root {env : Env} {node : Node} (h : IndexInv env node) {p : Uint256}
    {index : CBlockIndex} (hp : node.index? p = some index) (hroot : node.parent p = none) :
    node.heightOf p = 0 := by
  obtain ⟨block, -, -, hplaced⟩ := h.objects p index hp
  rw [Node.parent, hp] at hroot
  rw [Node.heightOf, hp]
  rcases hplaced with ⟨-, -, hheight⟩ | ⟨hprev, -⟩
  · exact hheight
  · cases hroot.symm.trans hprev

section chain

variable {env : Env} {chain : List Uint256} {w : World}

/-- Heights are counted from the lower end of the best chain. -/
theorem BestInv.heightOf_getElem? (h : BestInv env chain w) {i : Nat} {p : Uint256}
    (hp : chain[i]? = some p) : w.node.heightOf p + i + 1 = chain.length := by
  have hparent := h.lineage.getElem?_parent hp
  have hlt := (List.getElem?_eq_some_iff.mp hp).1
  induction hn : chain.length - i generalizing i p with
  | zero => omega
  | succ n ih =>
    cases hnext : chain[i + 1]? with
    | none =>
      have hle := List.getElem?_eq_none_iff.mp hnext
      obtain ⟨index, hindex⟩ := h.indexed (List.mem_of_getElem? hp)
      rw [h.index.heightOf_root hindex (hparent.trans hnext)]
      omega
    | some q =>
      have hlt' := (List.getElem?_eq_some_iff.mp hnext).1
      have hq := ih hnext (h.lineage.getElem?_parent hnext) hlt' (by omega)
      rw [h.index.heightOf_parent p q (hparent.trans hnext)]
      omega

theorem BestInv.nBestHeight (h : BestInv env chain w) :
    w.node.nBestHeight + 1 = chain.length := by
  obtain ⟨index, hindex, hheight, -⟩ := h.trust
  have hbest : chain[0]? = some w.node.hashBestChain := by
    rw [← List.head?_eq_getElem?]
    exact h.hashBest
  have hlength := h.heightOf_getElem? hbest
  rw [Node.heightOf, hindex] at hlength
  rw [hheight, ← hlength]
  rfl

/-- Down the best chain by `pprev`. -/
theorem BestInv.linked_pprev (h : BestInv env chain w) :
    Linked w.node CBlockIndex.pprev chain := by
  intro i p hp
  obtain ⟨index, hindex⟩ := h.indexed (List.mem_of_getElem? hp)
  have hparent := h.lineage.getElem?_parent hp
  rw [Node.parent, hindex] at hparent
  exact ⟨index, hindex, hparent⟩

/-- Up the best chain by `pnext`. -/
theorem BestInv.linked_pnext (h : BestInv env chain w) :
    Linked w.node CBlockIndex.pnext chain.reverse := by
  intro i p hp
  have hlineage := lineage_nextIn_reverse h.lineage.ne_nil h.lineage.nodup_self
  obtain ⟨index, hindex⟩ := h.indexed (List.mem_reverse.mp (List.mem_of_getElem? hp))
  have hnext := hlineage.getElem?_parent hp
  rw [← h.pnext, Node.pnextOf, hindex] at hnext
  exact ⟨index, hindex, hnext⟩

/-- The walk begins on the best chain. -/
theorem BestInv.walkStart (h : BestInv env chain w) {last : Option Uint256}
    (hlast : ∀ p, last = some p → p ∈ chain) (nHeight : Int) :
    ∃ p ∈ chain, NoLimitCoin.walkStart w.node last nHeight = .ok (some p) := by
  have hends : ∃ p ∈ chain, (if nHeight < w.node.nBestHeight.tdiv 2 then w.node.pindexGenesisBlock
      else w.node.pindexBest) = some p := by
    split
    · obtain ⟨r, -, hr, -⟩ := h.first
      exact ⟨r, List.mem_of_getLast? hr, h.genesis.trans hr⟩
    · exact ⟨_, List.mem_of_head? h.hashBest, h.best.trans h.hashBest⟩
  obtain ⟨p, hp, hpointer⟩ := hends
  have hobject : ∀ q ∈ chain, ∃ index, objectAt w.node (some q) = .ok index := by
    intro q hq
    obtain ⟨index, hindex⟩ := h.indexed hq
    exact ⟨index, by rw [objectAt, Option.bind_some, hindex]⟩
  unfold NoLimitCoin.walkStart
  dsimp only
  rw [hpointer]
  cases last with
  | none => exact ⟨p, hp, rfl⟩
  | some last =>
    obtain ⟨index, hindex⟩ := hobject p hp
    obtain ⟨indexLast, hindexLast⟩ := hobject last (hlast last rfl)
    have hsome : (some last).isSome = true := rfl
    rw [if_pos hsome, hindex, hindexLast]
    by_cases hcloser : |nHeight - index.nHeight| > |nHeight - indexLast.nHeight|
    · exact ⟨last, hlast last rfl, congrArg Except.ok (if_pos hcloser)⟩
    · exact ⟨p, hp, congrArg Except.ok (if_neg hcloser)⟩

/-- A lookup from anywhere on the best chain. -/
theorem BestInv.findBlockByHeight (h : BestInv env chain w) {last : Option Uint256}
    (hlast : ∀ p, last = some p → p ∈ chain) {n fuel : Nat} (hn : n < chain.length)
    (hfuel : chain.length < fuel) :
    ∃ p, chain.reverse[n]? = some p ∧
      NoLimitCoin.findBlockByHeight w.node last fuel n = .ok p := by
  obtain ⟨start, hstart, hbegin⟩ := h.walkStart hlast n
  obtain ⟨i, hi⟩ := List.getElem?_of_mem hstart
  have hilt := (List.getElem?_eq_some_iff.mp hi).1
  have hheight : ∀ j p, chain[j]? = some p → w.node.heightOf p + j + 1 = chain.length :=
    fun j p => h.heightOf_getElem?
  have hreverse : ∀ j p, chain.reverse[j]? = some p → w.node.heightOf p = j := by
    intro j p hp
    have hlt := (List.getElem?_eq_some_iff.mp hp).1
    rw [List.length_reverse] at hlt
    rw [List.getElem?_reverse hlt] at hp
    have := hheight _ p hp
    omega
  -- the first walk ends at the height, or where it began
  obtain ⟨r, hr, hback, hrn⟩ : ∃ r, r ∈ chain ∧ walkWhile w.node CBlockIndex.pprev
      (fun m => decide ((m : Int) > n)) fuel (some start) = .ok r ∧ w.node.heightOf r ≤ n := by
    rw [← hi]
    have hj : chain.length - 1 - n < chain.length := by omega
    rcases Nat.lt_or_ge (chain.length - 1 - n) i with hlt | hge
    · have hlow := hheight i start hi
      refine ⟨start, hstart, ?_, by omega⟩
      exact walkWhile_eq h.linked_pprev (by omega) hi (fun k hk => absurd hk (Nat.not_lt_zero k))
        (decide_eq_false (by omega))
    · have hq := List.getElem?_eq_getElem hj
      have hqn := hheight _ _ hq
      refine ⟨_, List.getElem_mem hj, ?_, (by omega : w.node.heightOf chain[_] ≤ n)⟩
      refine walkWhile_eq (d := chain.length - 1 - n - i) h.linked_pprev (by omega) ?_
        (fun k hk p hp => decide_eq_true ?_) (decide_eq_false (by omega))
      · rw [← hq]
        congr 1
        omega
      · have := hheight _ p hp
        omega
  -- the second walk goes up from there
  obtain ⟨m, hm⟩ := List.getElem?_of_mem (List.mem_reverse.mpr hr)
  have hmn : m ≤ n := by
    have := hreverse m r hm
    omega
  have hlt : n < chain.reverse.length := by rwa [List.length_reverse]
  refine ⟨chain.reverse[n], List.getElem?_eq_getElem hlt, ?_⟩
  unfold NoLimitCoin.findBlockByHeight
  rw [hbegin]
  show (walkWhile _ _ _ _ _ >>= fun r => _) = _
  rw [hback]
  show walkWhile _ _ _ _ (some r) = _
  rw [← hm]
  refine walkWhile_eq (d := n - m) h.linked_pnext (by omega) ?_
    (fun k hk p hp => decide_eq_true ?_) (decide_eq_false ?_)
  · rw [Nat.add_sub_cancel' hmn, List.getElem?_eq_getElem hlt]
  · rw [hreverse _ p hp]
    omega
  · rw [hreverse _ _ (List.getElem?_eq_getElem hlt)]
    omega

end chain

/-! ## Calls between other calls -/

/-- The event tells that `SetBestChain` has set the globals, and `pblockindexFBBHLast` to null. -/
def Event.resetsLast : Event → Bool
  | .bestChainSet _ => true
  | _ => false

/-- `pblockindexFBBHLast` after a call that has led from `w` to `w'`. -/
def lastAfter (w w' : World) (pblockindexFBBHLast : Option Uint256) : Option Uint256 :=
  if (w'.log.drop w.log.length).any Event.resetsLast then none else pblockindexFBBHLast

/-- The states of a node with `pblockindexFBBHLast` that are reached by calls that return, with
lookups of the heights of the best chain between them. -/
inductive Session (env : Env) : World → Option Uint256 → Prop where
  | start {w : World} (h : Starts env w) : Session env w none
  | serve {w w' : World} {last : Option Uint256} {sys : Sys} {call : Call}
      (h : Session env w last) (hcall : w.serve env sys call = some w') :
      Session env w' (lastAfter w w' last)
  | find {w : World} {last : Option Uint256} {nHeight : Int} {fuel : Nat} {p : Uint256}
      (h : Session env w last) (hlow : 0 ≤ nHeight) (hhigh : nHeight ≤ w.node.nBestHeight)
      (hfound : findBlockByHeight w.node last fuel nHeight = .ok p) : Session env w (some p)

theorem lastAfter_none (w w' : World) : lastAfter w w' none = none := by
  unfold lastAfter
  split <;> rfl

/-- Without lookups nothing is kept. -/
theorem Reaches.session {env : Env} {w : World} (h : Reaches env w) : Session env w none := by
  induction h with
  | start h => exact .start h
  | @serve w w' _ _ _ hcall ih =>
    have hsession := ih.serve hcall
    rwa [lastAfter_none] at hsession

theorem Moves.log_prefix {env : Env} {w w' : World} (h : Moves env w w') : w.log <+: w'.log := by
  induction h with
  | refl => exact List.prefix_refl _
  | tail _ hmove ih => exact ih.trans hmove.log_prefix

/-- Moves leave the best chain as it is, or reset `pblockindexFBBHLast`. -/
theorem ChainRun.moves {env : Env} {chain : List Uint256} {w w' : World}
    (h : ChainRun env chain w) (hmoves : Moves env w w') (hok : LogOk env w'.log) :
    ∃ evs chain', w'.log = w.log ++ evs ∧ ChainRun env chain' w' ∧
      (chain' = chain ∨ evs.any Event.resetsLast = true) := by
  induction hmoves with
  | refl => exact ⟨[], chain, (List.append_nil _).symm, h, .inl rfl⟩
  | @tail w₁ w₂ _ hmove ih =>
    obtain ⟨evs, chain₁, hlog, hrun, hkept⟩ := ih (hok.of_prefix hmove.log_prefix)
    obtain ⟨evs', hlog'⟩ := hmove.log_prefix
    obtain ⟨chain₂, hchainMove⟩ := hmove.chainMove hrun.bestInv hok
    refine ⟨evs ++ evs', chain₂, by rw [← hlog', hlog, List.append_assoc],
      .move hrun hchainMove, ?_⟩
    rw [List.any_append]
    rcases hkept with rfl | hreset
    · cases hchainMove with
      | keep => exact .inl rfl
      | store => exact .inl rfl
      | insert => exact .inl rfl
      | @switch _ _ _ _ w₃ hswitches hset hgrows =>
        obtain ⟨evs'', hlog'', -⟩ := hgrows
        have hevs : w₁.log ++ evs' = w₁.log ++ (evs'' ++ [.bestChainSet w₃.node]) := by
          rw [hlog', ← List.append_assoc, ← hlog'']
          rfl
        rw [List.append_cancel_left hevs, List.any_append]
        exact .inr (by simp [Event.resetsLast])
    · exact .inr (by rw [hreset]; rfl)

/-- The block that the last lookup returned is on the best chain. -/
theorem Session.chainRun {env : Env} {w : World} {last : Option Uint256} (h : Session env w last)
    (hok : LogOk env w.log) :
    ∃ chain, ChainRun env chain w ∧ ∀ p, last = some p → p ∈ chain := by
  induction h with
  | start h =>
    obtain ⟨chain, hrun⟩ := (Reaches.start h).chainRun hok
    exact ⟨chain, hrun, fun _ hp => absurd hp nofun⟩
  | @serve w w' last sys _ _ hcall ih =>
    have hclock : Move env w { w with sys := sys } := .aside (Aside.of_sameNode ⟨rfl, rfl⟩)
    have hmoves : Moves env w w' := .head hclock (World.serve_moves hcall)
    obtain ⟨chain, hrun, hlast⟩ := ih (hok.of_prefix (Moves.log_prefix hmoves))
    obtain ⟨evs, chain', hlog, hrun', hkept⟩ := hrun.moves hmoves hok
    refine ⟨chain', hrun', fun p hp => ?_⟩
    rw [lastAfter, hlog, List.drop_left] at hp
    rcases hkept with rfl | hreset
    · split at hp
      · exact absurd hp nofun
      · exact hlast p hp
    · rw [if_pos hreset] at hp
      exact absurd hp nofun
  | @find w last nHeight fuel p _ hlow hhigh hfound ih =>
    obtain ⟨chain, hrun, hlast⟩ := ih hok
    obtain ⟨n, rfl⟩ := Int.eq_ofNat_of_zero_le hlow
    have hinv := hrun.bestInv
    have hbest := hinv.nBestHeight
    obtain ⟨q, hq, hlookup⟩ := @BestInv.findBlockByHeight _ _ _ hinv _ hlast n
      (max fuel (chain.length + 1)) (by omega) (Nat.le_max_right _ _)
    have heq := (findBlockByHeight_mono hfound (Nat.le_max_left _ _)).symm.trans hlookup
    obtain rfl := Except.ok.inj heq
    refine ⟨chain, hrun, fun p' hp' => ?_⟩
    obtain rfl := Option.some.inj hp'
    exact List.mem_reverse.mp (List.mem_of_getElem? hq)

/-- Two more blocks on top of the third side block. -/
def sideBlock₄ : CBlock :=
  coinBaseBlock 0xa886205b782576ce8197445378e8f399235567bc0f6fbbdacb23df427f
    0xca168eb2757a02aa45f43645e7d4718b0e9ed405e6d39ae290d1e5e749cb76c2 1464467300 56226778 4 [.empty]

def sideBlock₅ : CBlock :=
  coinBaseBlock 0xc85c5b57518f60eecdb8ae7b3543652a41f3f53cd3375eadff37b94380
    0x62e74b0348a0926a74a4c0428592378ecfe4dd4f555009c1f4158a4acdb8c361 1464467480 37476020 5 [.empty]

end NoLimitCoin
