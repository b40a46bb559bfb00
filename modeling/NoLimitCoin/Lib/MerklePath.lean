import Mathlib.Data.Nat.Bitwise
import NoLimitCoin.Lib.MerkleTree

/-!
# Paths in trees of hashes

A path from a leaf to the root takes the sibling of a node at every level; the last node of an odd
level is its own sibling.  A node is climbed to its parent by pairing it with the sibling, on the
side that the parity of its position says.

Results:

1. `climb_siblings`: a leaf and its siblings lead to the root.
2. `climb_eq_root`: what leads to the root is the leaf that the path comes from.
-/

variable {α : Type}

/-- Climb from a value, by the siblings of a path. -/
def climb (pair : α → α → α) : α → List α → Int → α
  | x, [], _ => x
  | x, s :: siblings, i =>
    climb pair (if i % 2 = 1 then pair s x else pair x s) siblings (i / 2)

/-- The values a climb comes through, the first included. -/
def climbed (pair : α → α → α) : α → List α → Int → List α
  | x, [], _ => [x]
  | x, s :: siblings, i =>
    x :: climbed pair (if i % 2 = 1 then pair s x else pair x s) siblings (i / 2)

/-- The number of levels above a list of `n` leaves. -/
def treeDepth (n : Nat) : Nat :=
  if n ≤ 1 then 0 else treeDepth ((n + 1) / 2) + 1
termination_by n
decreasing_by omega

/-- The position in a level of `n` nodes, `k` levels below the root, that a path comes from: a right
child beyond the end of the level is the last node. -/
def pathPosition : (k : Nat) → (n : Nat) → (i : Int) → Nat
  | 0, _, _ => 0
  | k + 1, n, i => min (2 * pathPosition k ((n + 1) / 2) (i / 2) + (i % 2).toNat) (n - 1)

section climb

variable {pair : α → α → α} {xs : List α}

theorem pairLevel_getElem? {p : Nat} {a b : α} (ha : xs[2 * p]? = some a)
    (hb : xs[min (2 * p + 1) (xs.length - 1)]? = some b) :
    (pairLevel pair xs)[p]? = some (pair a b) := by
  induction xs using pairLevel.induct generalizing p with
  | case1 => exact absurd ha (by simp)
  | case2 x =>
    cases p with
    | zero =>
      obtain rfl : x = a := Option.some.inj ha
      obtain rfl : x = b := Option.some.inj hb
      rfl
    | succ p => exact absurd ha (by simp)
  | case3 x y rest ih =>
    cases p with
    | zero =>
      obtain rfl : x = a := Option.some.inj ha
      have hmin : min (2 * 0 + 1) ((x :: y :: rest).length - 1) = 1 := by
        simp only [List.length_cons]
        omega
      rw [hmin] at hb
      obtain rfl : y = b := Option.some.inj hb
      rfl
    | succ p =>
      have ha' : rest[2 * p]? = some a := by
        rw [Nat.mul_succ] at ha
        exact ha
      have hlen := (List.getElem?_eq_some_iff.mp ha').1
      have hb' : rest[min (2 * p + 1) (rest.length - 1)]? = some b := by
        have hmin : min (2 * (p + 1) + 1) ((x :: y :: rest).length - 1) =
            min (2 * p + 1) (rest.length - 1) + 2 := by
          simp only [List.length_cons]
          omega
        rw [hmin] at hb
        exact hb
      rw [pairLevel, List.getElem?_cons_succ]
      exact ih ha' hb'

/-- The children of a node. -/
theorem children_of_pairLevel {p : Nat} {x : α} (h : (pairLevel pair xs)[p]? = some x) :
    ∃ a b, xs[2 * p]? = some a ∧ xs[min (2 * p + 1) (xs.length - 1)]? = some b ∧ x = pair a b := by
  have hp : p < (xs.length + 1) / 2 := by
    have hlen := (List.getElem?_eq_some_iff.mp h).1
    rwa [length_pairLevel] at hlen
  obtain ⟨a, ha⟩ : ∃ a, xs[2 * p]? = some a := by
    exact ⟨_, List.getElem?_eq_getElem (by omega)⟩
  obtain ⟨b, hb⟩ : ∃ b, xs[min (2 * p + 1) (xs.length - 1)]? = some b := by
    exact ⟨_, List.getElem?_eq_getElem (by omega)⟩
  refine ⟨a, b, ha, hb, ?_⟩
  rw [pairLevel_getElem? ha hb] at h
  exact (Option.some.inj h).symm

/-- A node and its sibling are climbed to their parent. -/
theorem parent_of_sibling {i : Nat} {x s : α} (hx : xs[i]? = some x)
    (hs : xs[min (i ^^^ 1) (xs.length - 1)]? = some s) :
    (pairLevel pair xs)[i / 2]? = some (if (i : Int) % 2 = 1 then pair s x else pair x s) := by
  have hi := (List.getElem?_eq_some_iff.mp hx).1
  rcases Nat.mod_two_eq_zero_or_one i with heven | hodd
  · rw [if_neg (by omega)]
    have hsibling : i ^^^ 1 = i + 1 := Nat.xor_one_of_even (Nat.even_iff.mpr heven)
    have hdouble : 2 * (i / 2) = i := by omega
    exact pairLevel_getElem? (hdouble.symm ▸ hx) (by rw [hdouble, ← hsibling]; exact hs)
  · rw [if_pos (by omega)]
    have hsibling : i ^^^ 1 = i - 1 := Nat.xor_one_of_odd (Nat.odd_iff.mpr hodd)
    have hdouble : 2 * (i / 2) = i - 1 := by omega
    have hclamp : min (i - 1) (xs.length - 1) = i - 1 := by omega
    have hself : min (2 * (i / 2) + 1) (xs.length - 1) = i := by omega
    rw [hsibling, hclamp] at hs
    exact pairLevel_getElem? (hdouble.symm ▸ hs) (hself.symm ▸ hx)

/-- The siblings of a path through the levels over a list. -/
inductive Siblings (pair : α → α → α) : List α → Nat → List α → Prop
  | root (x : α) (i : Nat) : Siblings pair [x] i []
  | level {xs : List α} {i : Nat} {s : α} {siblings : List α} (hlong : 1 < xs.length)
      (hs : xs[min (i ^^^ 1) (xs.length - 1)]? = some s)
      (habove : Siblings pair (pairLevel pair xs) (i / 2) siblings) :
      Siblings pair xs i (s :: siblings)

theorem Siblings.length_eq {i : Nat} {siblings : List α} (h : Siblings pair xs i siblings) :
    siblings.length = treeDepth xs.length := by
  induction h with
  | root x i =>
    rw [List.length_singleton, treeDepth, if_pos (le_refl 1)]
    rfl
  | @level xs i s siblings hlong hs habove ih =>
    rw [treeDepth, if_neg (not_le.mpr hlong), List.length_cons, ih, length_pairLevel]

/-- A leaf and its siblings lead to the root. -/
theorem climb_siblings {i : Nat} {siblings : List α} (h : Siblings pair xs i siblings) {x : α}
    (hx : xs[i]? = some x) :
    (pairLevel pair)^[siblings.length] xs = [climb pair x siblings i] := by
  induction h generalizing x with
  | root y i =>
    have hi : i = 0 := by
      have hlen := (List.getElem?_eq_some_iff.mp hx).1
      simpa using hlen
    rw [hi] at hx
    rw [show y = x from Option.some.inj hx]
    rfl
  | @level xs i s siblings hlong hs habove ih =>
    have hparent := @parent_of_sibling α pair xs i x s hx hs
    have hroot := ih hparent
    rw [List.length_cons, Function.iterate_succ_apply, climb]
    exact hroot

/-- What leads to the root is the leaf that the path comes from, if the pairs on the way and those
of the tree do not collide. -/
theorem climb_eq_root {Node : α → Prop} (hinj : PairInjective pair Node) {siblings : List α} {x : α}
    {i : Int} {root : α} (hlevels : LevelsIn pair Node siblings.length xs)
    (hsiblings : ∀ s ∈ siblings, Node s) (hclimbed : ∀ y ∈ climbed pair x siblings i, Node y)
    (hroot : (pairLevel pair)^[siblings.length] xs = [root])
    (h : climb pair x siblings i = root) :
    xs[pathPosition siblings.length xs.length i]? = some x := by
  induction siblings generalizing xs x i with
  | nil =>
    have hxs : xs = [root] := hroot
    rw [hxs, show x = root from h]
    rfl
  | cons s siblings ih =>
    rw [List.length_cons, Function.iterate_succ_apply] at hroot
    obtain ⟨hs, hrest⟩ := List.forall_mem_cons.mp hsiblings
    obtain ⟨hx, habove⟩ := List.forall_mem_cons.mp hclimbed
    have hup : LevelsIn pair Node siblings.length (pairLevel pair xs) :=
      LevelsIn.above (j := 1) hlevels
    have hparent := ih hup hrest habove hroot h
    rw [length_pairLevel] at hparent
    obtain ⟨a, b, ha, hb, hpair⟩ := children_of_pairLevel hparent
    have hnode : ∀ y ∈ xs, Node y := hlevels 0 (Nat.succ_pos _)
    have haNode := hnode a (List.mem_of_getElem? ha)
    have hbNode := hnode b (List.mem_of_getElem? hb)
    rw [List.length_cons, pathPosition]
    generalize pathPosition siblings.length ((xs.length + 1) / 2) (i / 2) = p at *
    rcases Int.emod_two_eq_zero_or_one i with heven | hodd
    · rw [if_neg (by omega)] at hpair
      have hlen := (List.getElem?_eq_some_iff.mp ha).1
      rw [heven, (hinj x s a b hx hs haNode hbNode hpair).1]
      have hmin : min (2 * p + (0 : Int).toNat) (xs.length - 1) = 2 * p := by
        simp only [Int.toNat_zero]
        omega
      rw [hmin]
      exact ha
    · rw [if_pos hodd] at hpair
      rw [hodd, (hinj s x a b hs hx haNode hbNode hpair).2]
      exact hb

/-- The path of a leaf comes from the leaf. -/
theorem pathPosition_of_lt {n i : Nat} (h : i < n) : pathPosition (treeDepth n) n i = i := by
  induction n using Nat.strong_induction_on generalizing i with
  | _ n ih =>
    rw [treeDepth]
    split
    · next hone =>
      have hi : i = 0 := by omega
      rw [hi]
      rfl
    · next hlong =>
      have hhalf := ih ((n + 1) / 2) (by omega) (i := i / 2) (by omega)
      have hcast : ((i / 2 : Nat) : Int) = (i : Int) / 2 := rfl
      rw [hcast] at hhalf
      rw [pathPosition, hhalf]
      omega

end climb
