import NoLimitCoin.MerkleBranch
import NoLimitCoin.BestChainRuns

/-!
# Block locators

`CBlockLocator`: the sender lists blocks of its branch at growing distances from its end, and the
receiver takes the first of them that is in its own main chain.

Results:

1. `setLoop_entries`: the entries are the blocks at the distances `distance`, however the walk
   falls off the first block.
2. `distanceLoop_eq`: `GetDistanceBack` retraces the same distances, although it counts the blocks
   and not the entries.
3. `locator_finds_fork`: the block found is an ancestor, at most about twice as far back as the
   fork.
-/

namespace Lineage

variable {α : Type} {parent : α → Option α} {a b : α} {chain : List α}

theorem getElem?_parent (h : Lineage parent chain) {i : Nat} (ha : chain[i]? = some a) :
    parent a = chain[i + 1]? := by
  induction h generalizing i with
  | root hroot =>
    cases i with
    | zero =>
      obtain rfl := Option.some.inj ha
      exact hroot
    | succ i => exact absurd ha (by simp)
  | child hab _ ih =>
    cases i with
    | zero =>
      obtain rfl := Option.some.inj ha
      exact hab
    | succ i => exact ih ha

/-- A lineage down to one of its nodes. -/
theorem branch_getElem? (h : Lineage parent (b :: chain)) {i : Nat}
    (ha : (b :: chain)[i]? = some a) : ∃ xs, Branch parent b xs a ∧ xs.length = i := by
  induction i generalizing b chain with
  | zero =>
    obtain rfl := Option.some.inj ha
    exact ⟨[], .nil _, rfl⟩
  | succ i ih =>
    cases chain with
    | nil => exact absurd ha (by simp)
    | cons c chain =>
      obtain ⟨hbc, hrest⟩ := h.tail
      obtain ⟨xs, hxs, hlength⟩ := ih hrest ha
      exact ⟨b :: xs, .cons hbc hxs, by rw [List.length_cons, hlength]⟩

end Lineage

namespace NoLimitCoin

open CMerkleTx

structure CBlockLocator where
  vHave : List Uint256
deriving Repr, DecidableEq

namespace CBlockLocator

/-- `nStep *= 2`, in an `int`. -/
def doubled (nStep : Int) : Int := Int.bmod (2 * nStep) (2 ^ 32)

/-- `for (int i = 0; pindex && i < nStep; i++) pindex = pindex->pprev;` -/
def stepBack (node : Node) : Nat → Option Uint256 → Option Uint256
  | 0, pindex => pindex
  | _ + 1, none => none
  | i + 1, some p => stepBack node i (node.parent p)

/-- The loop of `Set`. -/
def setLoop (node : Node) : Nat → Option Uint256 → Int → List Uint256 → Option (List Uint256)
  | 0, _, _, _ => none
  | _ + 1, none, _, vHave => some vHave
  | fuel + 1, some p, nStep, vHave =>
    let vHave := vHave ++ [p]
    setLoop node fuel (stepBack node nStep.toNat (some p))
      (if vHave.length > 10 then doubled nStep else nStep) vHave

def set (env : Env) (node : Node) (fuel : Nat) (pindex : Option Uint256) : Option CBlockLocator :=
  (setLoop node fuel pindex 1 []).map fun vHave => ⟨vHave ++ [env.genesisHash]⟩

/-- The loop of `GetDistanceBack`. -/
def distanceLoop (node : Node) : List Uint256 → Int → Int → Int
  | [], nDistance, _ => nDistance
  | hash :: rest, nDistance, nStep =>
    if (mainChainIndex node hash).isSome then nDistance
    else
      let nDistance := Int.bmod (nDistance + nStep) (2 ^ 32)
      distanceLoop node rest nDistance (if nDistance > 10 then doubled nStep else nStep)

/-- Retrace how far back it was in the sender's branch. -/
def getDistanceBack (node : Node) (locator : CBlockLocator) : Int :=
  distanceLoop node locator.vHave 0 1

/-- The first block of the locator that the receiver has in the main chain. -/
def getBlockIndex (node : Node) (locator : CBlockLocator) : Option Uint256 :=
  match locator.vHave.find? fun hash => (mainChainIndex node hash).isSome with
  | some hash => some hash
  | none => node.pindexGenesisBlock

/-! ## The two walks -/

/-- How far back the entry `j` of a locator is. -/
def distance (j : Nat) : Nat := if j ≤ 10 then j else 9 + 2 ^ (j - 10)

/-- The step after the entry `j`. -/
def step (j : Nat) : Nat := if j ≤ 10 then 1 else 2 ^ (j - 10)

theorem distance_succ (j : Nat) : distance (j + 1) = distance j + step j := by
  unfold distance step
  rcases Nat.lt_trichotomy j 10 with hlt | rfl | hgt
  · rw [if_pos (by omega), if_pos hlt.le, if_pos hlt.le]
  · rfl
  · rw [if_neg (by omega), if_neg (by omega), if_neg (by omega), Nat.succ_sub (by omega), pow_succ]
    omega

theorem step_succ (j : Nat) : step (j + 1) = if 10 < j + 1 then 2 * step j else step j := by
  unfold step
  rcases Nat.lt_trichotomy j 10 with hlt | rfl | hgt
  · rw [if_pos (by omega), if_neg (by omega), if_pos hlt.le]
  · rfl
  · rw [if_neg (by omega), if_pos (by omega), if_neg (by omega), Nat.succ_sub (by omega), pow_succ]
    omega

theorem step_pos (j : Nat) : 0 < step j := by
  unfold step
  split
  · exact Nat.one_pos
  · exact Nat.two_pow_pos _

theorem step_le (j : Nat) : step j ≤ distance j + 1 := by
  unfold step distance
  split <;> omega

theorem distance_strictMono : StrictMono distance := by
  refine strictMono_nat_of_lt_succ fun j => ?_
  rw [distance_succ]
  exact Nat.lt_add_of_pos_right (step_pos j)

/-- An entry is at most about twice as far back as the one before it. -/
theorem distance_succ_le (j : Nat) : distance (j + 1) ≤ 2 * distance j + 1 := by
  have hstep := step_le j
  rw [distance_succ]
  omega

/-- `GetDistanceBack` doubles the step after the same entries as `Set`. -/
theorem ten_lt_distance {j : Nat} : 10 < distance j ↔ 10 < j := by
  have hten : distance 10 = 10 := rfl
  conv_lhs => rw [← hten]
  exact distance_strictMono.lt_iff_lt

/-- The step does not overflow before the walk has fallen off a branch of 2^31 blocks. -/
theorem step_small {j : Nat} (h : distance j < 2 ^ 31) : step j ≤ 2 ^ 30 := by
  unfold distance at h
  unfold step
  split at h
  · next hle =>
    rw [if_pos hle]
    exact Nat.one_le_two_pow
  · next hnot =>
    rw [if_neg hnot]
    have hlt : 2 ^ (j - 10) < 2 ^ 31 := by omega
    have hexponent := (Nat.pow_lt_pow_iff_right (by decide)).mp hlt
    exact Nat.pow_le_pow_right (by decide) (by omega)

theorem bmod_small {n : Nat} (h : n < 2 ^ 31) : Int.bmod (n : Int) (2 ^ 32) = n := by
  refine Int.bmod_eq_of_le_mul_two ?_ ?_
  · push_cast
    omega
  · push_cast
    omega

/-- The step of the next entry, in an `int`. -/
theorem doubled_step {j : Nat} (h : distance (j + 1) < 2 ^ 31) :
    (if 10 < j + 1 then doubled (step j) else (step j : Int)) = step (j + 1) := by
  have hsmall := step_small h
  rw [step_succ] at hsmall ⊢
  split
  · next hlt =>
    rw [if_pos hlt] at hsmall
    rw [doubled, ← bmod_small (n := 2 * step j) (by omega), Nat.cast_mul, Nat.cast_ofNat]
  · rfl

/-! ## The entries -/

section walk

variable {node : Node} {chain : List Uint256}

theorem stepBack_none (node : Node) (n : Nat) : stepBack node n none = none := by
  cases n <;> rfl

theorem stepBack_eq (hparent : ∀ i a, chain[i]? = some a → node.parent a = chain[i + 1]?)
    (n i : Nat) : stepBack node n chain[i]? = chain[i + n]? := by
  induction n generalizing i with
  | zero => rfl
  | succ n ih =>
    cases ha : chain[i]? with
    | none =>
      have hle := List.getElem?_eq_none_iff.mp ha
      rw [stepBack_none, List.getElem?_eq_none (by omega)]
    | some a => rw [stepBack, hparent i a ha, ih, Nat.add_right_comm, Nat.add_assoc]

/-- `Set` lists the blocks of the branch at the distances of the sequence. -/
theorem setLoop_entries (hparent : ∀ i a, chain[i]? = some a → node.parent a = chain[i + 1]?)
    (hshort : chain.length ≤ 2 ^ 31) {fuel j : Nat} {nStep : Int} {vHave : List Uint256}
    (hfuel : chain.length < fuel + j) (hlength : vHave.length = j)
    (hentries : ∀ i < j, vHave[i]? = chain[distance i]?)
    (hstep : distance j < chain.length → nStep = step j) :
    ∃ entries, setLoop node fuel chain[distance j]? nStep vHave = some entries ∧
      ∀ i, entries[i]? = chain[distance i]? := by
  induction fuel generalizing j nStep vHave with
  | zero =>
    -- every entry has used up a block, so the fuel outlasts the branch
    obtain ⟨i, rfl⟩ : ∃ i, j = i + 1 := ⟨j - 1, by omega⟩
    have hsome : i < vHave.length := by omega
    have hentry := hentries i (Nat.lt_succ_self i)
    rw [List.getElem?_eq_getElem hsome] at hentry
    have hlt := (List.getElem?_eq_some_iff.mp hentry.symm).1
    have hle : i ≤ distance i := distance_strictMono.le_apply
    omega
  | succ fuel ih =>
    by_cases hlt : distance j < chain.length
    · rw [List.getElem?_eq_getElem hlt, setLoop]
      rw [hstep hlt, Int.toNat_natCast, ← List.getElem?_eq_getElem hlt, stepBack_eq hparent,
        ← distance_succ, List.length_append, List.length_singleton, hlength]
      refine ih (by omega) (by simp [hlength]) (fun i hi => ?_) fun hlt' => ?_
      · rcases Nat.lt_succ_iff_lt_or_eq.mp hi with hi | rfl
        · rw [List.getElem?_append_left (by omega), hentries i hi]
        · rw [List.getElem?_append_right (by omega), hlength, Nat.sub_self,
            List.getElem?_eq_getElem hlt]
          rfl
      · exact doubled_step (by omega)
    · have hle := not_lt.mp hlt
      rw [List.getElem?_eq_none hle, setLoop]
      refine ⟨vHave, rfl, fun i => ?_⟩
      rcases Nat.lt_or_ge i j with hi | hi
      · exact hentries i hi
      · have hmono := distance_strictMono.monotone hi
        rw [List.getElem?_eq_none (by omega), List.getElem?_eq_none (by omega)]

/-- As long as `GetDistanceBack` is on the entries, it counts their distances. -/
theorem distanceLoop_eq (tail : List Uint256) {entries : List Uint256} {j k : Nat} {r : Uint256}
    (hsmall : distance (j + k) < 2 ^ 31) (hr : entries[k]? = some r)
    (hmain : (mainChainIndex node r).isSome)
    (hfirst : ∀ i < k, ∀ a, entries[i]? = some a → (mainChainIndex node a).isSome = false) :
    distanceLoop node (entries ++ tail) (distance j) (step j) = distance (j + k) := by
  induction k generalizing j entries with
  | zero =>
    cases entries with
    | nil => exact absurd hr (by simp)
    | cons hash rest =>
      obtain rfl := Option.some.inj hr
      rw [List.cons_append, distanceLoop, if_pos hmain]
      rfl
  | succ k ih =>
    cases entries with
    | nil => exact absurd hr (by simp)
    | cons hash rest =>
      have hnot := hfirst 0 (Nat.succ_pos k) hash rfl
      have hle : distance (j + 1) ≤ distance (j + (k + 1)) :=
        distance_strictMono.monotone (by omega)
      have hdistance : Int.bmod ((distance j : Int) + step j) (2 ^ 32) = distance (j + 1) := by
        rw [← Nat.cast_add, ← distance_succ]
        exact bmod_small (by omega)
      rw [List.cons_append, distanceLoop, if_neg (by rw [hnot]; decide)]
      rw [hdistance]
      have hcond : ((distance (j + 1) : Int) > 10) ↔ 10 < j + 1 := by
        rw [← ten_lt_distance]
        omega
      simp only [hcond]
      rw [doubled_step (by omega), ih (j := j + 1)]
      · rw [Nat.add_right_comm, Nat.add_assoc]
      · rw [Nat.add_right_comm, Nat.add_assoc]
        exact hsmall
      · exact hr
      · exact fun i hi a ha => hfirst (i + 1) (by omega) a ha

end walk

/-! ## The fork -/

/-- After every distance comes an entry that is at most twice as far back. -/
theorem exists_distance (D : Nat) : ∃ m, D ≤ distance m ∧ distance m ≤ 2 * D := by
  induction D with
  | zero => exact ⟨0, Nat.le_refl _, Nat.le_refl _⟩
  | succ D ih =>
    obtain ⟨m, hle, htwice⟩ := ih
    rcases Nat.lt_or_eq_of_le hle with hlt | heq
    · exact ⟨m, hlt, by omega⟩
    · have hlt : distance m < distance (m + 1) := distance_strictMono (Nat.lt_succ_self m)
      have hnext := distance_succ_le m
      exact ⟨m + 1, by omega, by omega⟩

section fork

variable {env : Env} {node : Node} {chain entries : List Uint256} {r : Uint256} {k : Nat}

/-- The entries before the first one that is in the main chain. -/
theorem getBlockIndex_entry (tail : List Uint256) (hr : entries[k]? = some r)
    (hmain : (mainChainIndex node r).isSome)
    (hfirst : ∀ i < k, ∀ a, entries[i]? = some a → (mainChainIndex node a).isSome = false) :
    getBlockIndex node ⟨entries ++ tail⟩ = some r := by
  obtain ⟨hk, hget⟩ := List.getElem?_eq_some_iff.mp hr
  have hfind : entries.find? (fun hash => (mainChainIndex node hash).isSome) = some r := by
    refine List.find?_eq_some_iff_getElem.mpr ⟨hmain, k, hk, hget, fun i hi => ?_⟩
    rw [hfirst i hi _ (List.getElem?_eq_getElem _)]
    rfl
  rw [getBlockIndex, List.find?_append, hfind]
  rfl

/-- Where no entry is in the main chain, the first block is found. -/
theorem getBlockIndex_genesis (hgenesis : node.pindexGenesisBlock = some env.genesisHash)
    (hnone : ∀ a ∈ entries, (mainChainIndex node a).isSome = false) :
    getBlockIndex node ⟨entries ++ [env.genesisHash]⟩ = some env.genesisHash := by
  have hfind : entries.find? (fun hash => (mainChainIndex node hash).isSome) = none :=
    List.find?_eq_none.mpr fun a ha => by rw [hnone a ha]; decide
  rw [getBlockIndex, List.find?_append, hfind, Option.none_or, List.find?_singleton]
  split
  · next hash heq =>
    split at heq
    · exact heq.symm
    · exact absurd heq nofun
  · exact hgenesis

/-- The block that is found lies on the branch, at most twice as far back as any block below
which all of the branch is in the main chain. -/
theorem getBlockIndex_back (hentries : ∀ i, entries[i]? = chain[distance i]?)
    (hshort : chain.length ≤ 2 ^ 31) (hlast : chain.getLast? = some env.genesisHash)
    (hgenesis : node.pindexGenesisBlock = some env.genesisHash) :
    ∃ (d : Nat) (r : Uint256),
      getBlockIndex node ⟨entries ++ [env.genesisHash]⟩ = some r ∧ chain[d]? = some r ∧
      ((mainChainIndex node r).isSome ∨ r = env.genesisHash) ∧
      (∀ D : Nat, (∀ i a, D ≤ i → chain[i]? = some a → (mainChainIndex node a).isSome) → d ≤ 2 * D) ∧
      ((∃ a ∈ entries, (mainChainIndex node a).isSome) →
        getDistanceBack node ⟨entries ++ [env.genesisHash]⟩ = d) := by
  by_cases hex : ∃ (k : Nat) (a : Uint256), entries[k]? = some a ∧ (mainChainIndex node a).isSome
  · have hspec := Nat.find_spec hex
    have hmin := fun i => Nat.find_min hex (m := i)
    generalize Nat.find hex = k at hspec hmin
    obtain ⟨r, hr, hmain⟩ := hspec
    have hfirst : ∀ i < k, ∀ a, entries[i]? = some a → (mainChainIndex node a).isSome = false :=
      fun i hi a ha => Bool.not_eq_true _ ▸ fun hmain => hmin i hi ⟨a, ha, hmain⟩
    have hchain := hr
    rw [hentries] at hchain
    have hlt := (List.getElem?_eq_some_iff.mp hchain).1
    refine ⟨distance k, r, getBlockIndex_entry _ hr hmain hfirst, hchain, .inl hmain,
      fun D hD => ?_, fun _ => ?_⟩
    · obtain ⟨m, hle, htwice⟩ := exists_distance D
      by_cases hm : m < k
      · -- the entry `m` would have been found before
        have hmlt := distance_strictMono hm
        have hentry : entries[m]? = some chain[distance m] := by
          rw [hentries, List.getElem?_eq_getElem]
        have hon := hD _ _ hle (List.getElem?_eq_getElem (by omega))
        exact absurd ⟨_, hentry, hon⟩ (hmin m hm)
      · exact (distance_strictMono.monotone (not_lt.mp hm)).trans htwice
    · have h := distanceLoop_eq (j := 0) [env.genesisHash] (by rw [Nat.zero_add]; omega)
        hr hmain hfirst
      rwa [Nat.zero_add] at h
  · have hnone : ∀ a ∈ entries, (mainChainIndex node a).isSome = false := by
      intro a ha
      obtain ⟨i, hi⟩ := List.getElem?_of_mem ha
      exact Bool.not_eq_true _ ▸ fun hmain => hex ⟨i, a, hi, hmain⟩
    rw [List.getLast?_eq_getElem?] at hlast
    refine ⟨chain.length - 1, _, getBlockIndex_genesis hgenesis hnone, hlast, .inr rfl,
      fun D hD => ?_, ?_⟩
    · obtain ⟨m, hle, htwice⟩ := exists_distance D
      by_cases hm : distance m < chain.length
      · have hentry : entries[m]? = some chain[distance m] := by
          rw [hentries, List.getElem?_eq_getElem]
        exact absurd ⟨m, _, hentry, hD _ _ hle (List.getElem?_eq_getElem hm)⟩ hex
      · omega
    · rintro ⟨a, ha, hmain⟩
      rw [hnone a ha] at hmain
      exact absurd hmain (by decide)

end fork

end CBlockLocator

/-! ## Sender and receiver -/

/-- The blocks of a node form a tree over the first block, whose heights fit an `int`. -/
structure BlockTree (env : Env) (node : Node) : Prop where
  indexed : ∀ a b, node.parent a = some b → (node.index? b).isSome
  root : ∀ a, (node.index? a).isSome → node.parent a = none →
    a = env.genesisHash ∧ node.heightOf a = 0
  height : ∀ a b, node.parent a = some b → node.heightOf a = node.heightOf b + 1
  small : ∀ a, node.heightOf a < 2 ^ 31

theorem IndexInv.blockTree {env : Env} {node : Node} (h : IndexInv env node)
    (hgenesis : (genesisBlock env).getHash env = env.genesisHash)
    (hsmall : ∀ a, node.heightOf a < 2 ^ 31) : BlockTree env node where
  indexed a b hab := by
    obtain ⟨_, _, _, -, hb, -⟩ := h.parent_some hab
    rw [hb]
    rfl
  root a ha hroot := by
    obtain ⟨index, ha⟩ := Option.isSome_iff_exists.mp ha
    obtain ⟨block, -, hobject, hplaced⟩ := h.objects a index ha
    rw [Node.parent, ha] at hroot
    rcases hplaced with ⟨-, rfl, hheight⟩ | ⟨hprev, -⟩
    · rw [Node.heightOf, ha]
      exact ⟨hobject.hash.symm.trans hgenesis, hheight⟩
    · cases hroot.symm.trans hprev
  height := h.heightOf_parent
  small := hsmall

namespace BlockTree

variable {env : Env} {node : Node} {p a : Uint256} {chain xs : List Uint256}

theorem height_lt (h : BlockTree env node) (a b : Uint256) (hab : node.parent a = some b) :
    node.heightOf b < node.heightOf a := by
  rw [h.height a b hab]
  exact Nat.lt_succ_self _

/-- The length of a branch is the difference of the heights. -/
theorem heightOf_branch (h : BlockTree env node) (hxs : Branch node.parent p xs a) :
    node.heightOf p = node.heightOf a + xs.length := by
  induction hxs with
  | nil => rfl
  | cons hab _ ih => rw [h.height _ _ hab, ih, List.length_cons, Nat.add_assoc]

/-- All of a lineage is in the index, and it ends with the first block. -/
theorem lineage (h : BlockTree env node) (hp : (node.index? p).isSome)
    (hchain : Lineage node.parent (p :: chain)) :
    (∀ a ∈ p :: chain, (node.index? a).isSome) ∧
      (p :: chain).getLast? = some env.genesisHash ∧ (p :: chain).length = node.heightOf p + 1 := by
  induction chain generalizing p with
  | nil =>
    cases hchain with
    | root hroot =>
      obtain ⟨rfl, hheight⟩ := h.root p hp hroot
      exact ⟨by simpa using hp, rfl, by rw [hheight]; rfl⟩
  | cons b chain ih =>
    obtain ⟨hpb, hrest⟩ := hchain.tail
    obtain ⟨hindexed, hlast, hlength⟩ := ih (h.indexed _ _ hpb) hrest
    refine ⟨List.forall_mem_cons.mpr ⟨hp, hindexed⟩, ?_, ?_⟩
    · rw [List.getLast?_cons_cons, hlast]
    · rw [List.length_cons, hlength, h.height _ _ hpb]

theorem initial (env : Env) : BlockTree env Node.initial where
  indexed _ _ hab := absurd hab nofun
  root _ ha := absurd ha Bool.false_ne_true
  height _ _ hab := absurd hab nofun
  small _ := Nat.two_pow_pos _

/-- A new block goes on top of a block of the tree. -/
theorem setIndex (h : BlockTree env node) {index : CBlockIndex} (hnew : node.index? p = none)
    (hplace : (index.pprev = none ∧ p = env.genesisHash ∧ index.nHeight = 0) ∨
      ∃ q, index.pprev = some q ∧ (node.index? q).isSome ∧ index.nHeight = node.heightOf q + 1)
    (hsmall : index.nHeight < 2 ^ 31) : BlockTree env (node.setIndex p index) := by
  have hself : (node.setIndex p index).index? p = some index := by
    rw [Node.index?_setIndex, if_pos rfl]
  have hother : ∀ a, a ≠ p → (node.setIndex p index).index? a = node.index? a := fun a ha => by
    rw [Node.index?_setIndex, if_neg ha.symm]
  have hparent : ∀ a, a ≠ p → (node.setIndex p index).parent a = node.parent a := fun a ha => by
    rw [Node.parent, Node.parent, hother a ha]
  have hheight : ∀ a, a ≠ p → (node.setIndex p index).heightOf a = node.heightOf a := fun a ha => by
    rw [Node.heightOf, Node.heightOf, hother a ha]
  have hne : ∀ a, (node.index? a).isSome → a ≠ p := by
    rintro a ha rfl
    rw [hnew] at ha
    exact absurd ha (by decide)
  -- the parent of any block is an old block, one lower
  have hold : ∀ a b, (node.setIndex p index).parent a = some b → (node.index? b).isSome ∧
      (node.setIndex p index).heightOf a = node.heightOf b + 1 := by
    intro a b hab
    by_cases ha : a = p
    · rw [ha, Node.parent, hself] at hab
      rw [ha, Node.heightOf, hself]
      rcases hplace with ⟨hroot, -⟩ | ⟨q, hq, hindexed, hheight⟩
      · cases hroot.symm.trans hab
      · obtain rfl : q = b := Option.some.inj (hq.symm.trans hab)
        exact ⟨hindexed, hheight⟩
    · rw [hparent a ha] at hab
      rw [hheight a ha]
      exact ⟨h.indexed a b hab, h.height a b hab⟩
  refine ⟨fun a b hab => ?_, fun a ha hroot => ?_, fun a b hab => ?_, fun a => ?_⟩
  · obtain ⟨hb, -⟩ := hold a b hab
    rwa [hother b (hne b hb)]
  · by_cases hap : a = p
    · rw [hap, Node.parent, hself] at hroot
      rw [hap, Node.heightOf, hself]
      rcases hplace with ⟨-, heq, hzero⟩ | ⟨q, hq, -⟩
      · exact ⟨heq, hzero⟩
      · cases hroot.symm.trans hq
    · rw [hparent a hap] at hroot
      rw [hother a hap] at ha
      rw [hheight a hap]
      exact h.root a ha hroot
  · obtain ⟨hb, hrise⟩ := hold a b hab
    rw [hrise, hheight b (hne b hb)]
  · by_cases ha : a = p
    · rw [ha, Node.heightOf, hself]
      exact hsmall
    · rw [hheight a ha]
      exact h.small a

end BlockTree

/-- A block on the main chain: it and all its ancestors pass `IsInMainChain`. -/
def OnMainChain (node : Node) (a : Uint256) : Prop :=
  ∃ rest, Lineage node.parent (a :: rest) ∧ ∀ b ∈ a :: rest, (mainChainIndex node b).isSome

theorem mainChainIndex_isSome {node : Node} {a : Uint256} :
    (mainChainIndex node a).isSome ↔
      (node.index? a).isSome ∧ ((node.pnextOf a).isSome ∨ node.pindexBest = some a) := by
  unfold mainChainIndex Node.pnextOf
  cases ha : node.index? a with
  | none => simp
  | some index => simp [Node.isInMainChain, Option.isSome_filter]

theorem nextIn_isSome {a : Uint256} {b : Uint256} {rest : List Uint256} (h : b ∈ rest) :
    (nextIn (a :: rest) b).isSome := by
  induction rest generalizing a with
  | nil => exact absurd h List.not_mem_nil
  | cons c rest ih =>
    rw [nextIn]
    split
    · rfl
    · next hne => exact ih ((List.mem_cons.mp h).resolve_left hne)

/-- Between two calls, the path from the first block to the best is the main chain. -/
theorem BestInv.onMainChain {env : Env} {chain : List Uint256} {w : World}
    (h : BestInv env chain w) {a : Uint256} (ha : a ∈ chain) : OnMainChain w.node a := by
  have hmain : ∀ b ∈ chain, (mainChainIndex w.node b).isSome := by
    intro b hb
    refine mainChainIndex_isSome.mpr ⟨?_, ?_⟩
    · obtain ⟨i, hi⟩ := List.getElem?_of_mem hb
      have hparent := h.lineage.getElem?_parent hi
      cases hnext : chain[i + 1]? with
      | some c =>
        rw [hnext] at hparent
        obtain ⟨index, hindex, -⟩ := Option.bind_eq_some_iff.mp hparent
        exact Option.isSome_iff_exists.mpr ⟨index, hindex⟩
      | none =>
        obtain ⟨r, index, hlast, hindex⟩ := h.first
        have hlt := (List.getElem?_eq_some_iff.mp hi).1
        have hle := List.getElem?_eq_none_iff.mp hnext
        obtain rfl : chain.length - 1 = i := by omega
        rw [List.getLast?_eq_getElem?, hi] at hlast
        obtain rfl := Option.some.inj hlast
        exact Option.isSome_iff_exists.mpr ⟨index, hindex⟩
    · rw [h.pnext, h.best]
      cases chain with
      | nil => exact absurd hb List.not_mem_nil
      | cons q rest =>
        rcases List.mem_cons.mp hb with rfl | hb
        · exact .inr rfl
        · exact .inl (nextIn_isSome hb)
  obtain ⟨us, vs, hsplit⟩ := List.append_of_mem ha
  refine ⟨vs, Lineage.of_append (hsplit ▸ h.lineage), fun b hb => hmain b ?_⟩
  rw [hsplit]
  exact List.mem_append_right _ hb

/-- The hash of a block determines its parent. -/
def SharedBlocks (node node' : Node) : Prop :=
  ∀ a, (node.index? a).isSome → (node'.index? a).isSome → node.parent a = node'.parent a

/-- A block that both nodes have, has the same ancestors with both. -/
theorem SharedBlocks.lineage_unique {node node' : Node} (h : SharedBlocks node node')
    {a : Uint256} {xs ys : List Uint256} (hxs : Lineage node.parent (a :: xs))
    (hys : Lineage node'.parent (a :: ys)) (hnode : ∀ b ∈ a :: xs, (node.index? b).isSome)
    (hnode' : ∀ b ∈ a :: ys, (node'.index? b).isSome) : xs = ys := by
  induction xs generalizing a ys with
  | nil =>
    have hparent := h a (hnode a List.mem_cons_self) (hnode' a List.mem_cons_self)
    cases hxs with
    | root hroot =>
      cases hys with
      | root => rfl
      | child hab _ => rw [hroot, hab] at hparent; exact absurd hparent nofun
  | cons b xs ih =>
    have hparent := h a (hnode a List.mem_cons_self) (hnode' a List.mem_cons_self)
    obtain ⟨hab, hxs⟩ := hxs.tail
    cases hys with
    | root hroot => rw [hroot, hab] at hparent; exact absurd hparent nofun
    | child hab' hys =>
      rw [hab, hab'] at hparent
      obtain rfl := Option.some.inj hparent
      rw [ih hxs hys (fun c hc => hnode c (List.mem_cons_of_mem _ hc))
        fun c hc => hnode' c (List.mem_cons_of_mem _ hc)]

open CBlockLocator in
/-- Block locators find the fork: the receiver finds an ancestor of the sender's block in its main
chain, or the first block; it is at most ten blocks more than twice as far back as any ancestor on
the main chain; and if it is not the appended entry of the first block, `GetDistanceBack` counts
the distance. -/
theorem locator_finds_fork {env : Env} {sender receiver : Node} {p : Uint256}
    (hsender : BlockTree env sender) (hp : (sender.index? p).isSome)
    (hreceiver : receiver.pindexGenesisBlock = some env.genesisHash)
    (hshared : SharedBlocks sender receiver) :
    ∃ locator r, (∀ fuel, sender.heightOf p + 1 < fuel →
        CBlockLocator.set env sender fuel (some p) = some locator) ∧
      locator.getBlockIndex receiver = some r ∧
      (∃ xs, Branch sender.parent p xs r) ∧
      ((mainChainIndex receiver r).isSome ∨ r = env.genesisHash) ∧
      (∀ a xs, Branch sender.parent p xs a → OnMainChain receiver a →
        sender.heightOf p - sender.heightOf r ≤
          2 * (sender.heightOf p - sender.heightOf a) + 10) ∧
      ((∃ hash ∈ locator.vHave.dropLast, (mainChainIndex receiver hash).isSome) →
        locator.getDistanceBack receiver = (sender.heightOf p - sender.heightOf r : Nat)) := by
  obtain ⟨chain, hchain⟩ := Lineage.exists_of_rank hsender.height_lt p
  obtain ⟨hindexed, hlast, hlength⟩ := hsender.lineage hp hchain
  have hsmall := hsender.small p
  have hset : ∀ fuel, sender.heightOf p + 1 < fuel → ∃ entries,
      setLoop sender fuel (some p) 1 [] = some entries ∧
        ∀ i, entries[i]? = (p :: chain)[distance i]? := fun fuel hfuel =>
    setLoop_entries (j := 0) (fun _ _ => hchain.getElem?_parent) (by omega) (by omega) rfl
      (fun i hi => absurd hi (Nat.not_lt_zero i)) (fun _ => rfl)
  obtain ⟨entries, -, hentries⟩ := hset (sender.heightOf p + 2) (Nat.lt_succ_self _)
  obtain ⟨d, r, hfound, hr, hmain, hback, hdistance⟩ :=
    getBlockIndex_back hentries (by omega) hlast hreceiver
  obtain ⟨xs, hxs, hxslength⟩ := hchain.branch_getElem? hr
  have hheight := hsender.heightOf_branch hxs
  refine ⟨⟨entries ++ [env.genesisHash]⟩, r, fun fuel hfuel => ?_, hfound, ⟨xs, hxs⟩, hmain,
    fun a ys hys hon => ?_, fun hex => ?_⟩
  · obtain ⟨entries', hloop, hentries'⟩ := hset fuel hfuel
    obtain rfl : entries' = entries :=
      List.ext_getElem? fun i => (hentries' i).trans (hentries i).symm
    rw [CBlockLocator.set, hloop]
    rfl
  · have hheight' := hsender.heightOf_branch hys
    obtain ⟨rest, hrest, hallmain⟩ := hon
    obtain ⟨zs, hzs⟩ := hys.split hchain
    -- from the fork down, the sender's branch is the receiver's main chain
    obtain rfl : zs = rest := hshared.lineage_unique (Lineage.of_append (hzs ▸ hchain)) hrest
      (fun b hb => hindexed b (hzs ▸ List.mem_append_right _ hb))
      fun b hb => (mainChainIndex_isSome.mp (hallmain b hb)).1
    have htwice := hback ys.length fun i b hi hb => by
      rw [hzs, List.getElem?_append_right hi] at hb
      exact hallmain b (List.mem_of_getElem? hb)
    omega
  · rw [hdistance (by simpa using hex)]
    omega

/-! ## Two nodes -/

/-- An object for a block at a place in the tree. -/
def placedIndex (pprev pnext : Option Uint256) (nHeight : Nat) : CBlockIndex :=
  { CBlockIndex.ofBlock 1 0 (genesisBlock mainNet) with
    pprev := pprev
    pnext := pnext
    nHeight := nHeight }

/-- The first block and the blocks 1, 2 and 3. -/
def forkSender : Node :=
  (((Node.initial.setIndex hashGenesisBlock (placedIndex none (some 1) 0)).setIndex 1
    (placedIndex (some hashGenesisBlock) (some 2) 1)).setIndex 2
    (placedIndex (some 1) (some 3) 2)).setIndex 3 (placedIndex (some 2) none 3)

/-- The first block and the blocks 1 and 4. -/
def forkReceiver : Node :=
  { ((Node.initial.setIndex hashGenesisBlock (placedIndex none (some 1) 0)).setIndex 1
      (placedIndex (some hashGenesisBlock) (some 4) 1)).setIndex 4 (placedIndex (some 1) none 2) with
    pindexGenesisBlock := some hashGenesisBlock
    pindexBest := some 4 }

theorem forkSender_blockTree : BlockTree mainNet forkSender := by
  unfold forkSender
  refine BlockTree.setIndex (BlockTree.setIndex (BlockTree.setIndex (BlockTree.setIndex
    (BlockTree.initial mainNet) rfl (.inl ⟨rfl, rfl, rfl⟩) ?_) ?_ (.inr ⟨_, rfl, ?_, ?_⟩) ?_)
    ?_ (.inr ⟨_, rfl, ?_, ?_⟩) ?_) ?_ (.inr ⟨_, rfl, ?_, ?_⟩) ?_
  all_goals decide +kernel

theorem fork_sharedBlocks : SharedBlocks forkSender forkReceiver := by
  intro a ha ha'
  by_cases hfour : 4 = a
  · rw [← hfour] at ha
    exact absurd ha (by decide +kernel)
  by_cases hone : 1 = a
  · rw [← hone]
    decide +kernel
  by_cases hgenesis : hashGenesisBlock = a
  · rw [← hgenesis]
    decide +kernel
  · have hnone : forkReceiver.index? a = none := by
      show (((Node.initial.setIndex _ _).setIndex 1 _).setIndex 4 _).index? a = none
      rw [Node.index?_setIndex, if_neg hfour, Node.index?_setIndex, if_neg hone,
        Node.index?_setIndex, if_neg hgenesis]
      rfl
    rw [hnone] at ha'
    exact absurd ha' Bool.false_ne_true

/-- The receiver finds an ancestor of the block 3. -/
theorem locator_finds_fork_sample :
    ∃ locator r, (∀ fuel, forkSender.heightOf 3 + 1 < fuel →
        CBlockLocator.set mainNet forkSender fuel (some 3) = some locator) ∧
      locator.getBlockIndex forkReceiver = some r ∧ ∃ xs, Branch forkSender.parent 3 xs r := by
  obtain ⟨locator, r, hset, hfound, hbranch, -⟩ :=
    locator_finds_fork forkSender_blockTree (p := 3) (by decide +kernel) rfl fork_sharedBlocks
  exact ⟨locator, r, hset, hfound, hbranch⟩

end NoLimitCoin
