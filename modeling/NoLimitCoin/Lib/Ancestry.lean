import Mathlib.Data.List.Nodup
import Mathlib.Logic.Function.Basic

/-!
# Lines of descent

A forest given by a parent function: a `Lineage` is the path from a node to its root, newest
node first, and a `Branch` the part of a path above another node.  `nextIn` turns a path
around: it leads from every node to the one above it.

Results:

1. `Lineage.unique`: a node has at most one lineage, and `Lineage.exists_of_rank`: it has one
   where the parents have a smaller rank.
2. `Branch.split`: a branch is the beginning of the lineage of its upper end.
3. `update_nextIn_tail`: taking a node off a path changes `nextIn` at one place.
-/

variable {α : Type}

/-- The path from a node to its root, newest node first. -/
inductive Lineage (parent : α → Option α) : List α → Prop where
  | root {a : α} (h : parent a = none) : Lineage parent [a]
  | child {a b : α} {rest : List α} (h : parent a = some b) (hrest : Lineage parent (b :: rest)) :
      Lineage parent (a :: b :: rest)

/-- The path from `a` down to `c`, without `c` itself. -/
inductive Branch (parent : α → Option α) : α → List α → α → Prop where
  | nil (a : α) : Branch parent a [] a
  | cons {a b c : α} {xs : List α} (h : parent a = some b) (hrest : Branch parent b xs c) :
      Branch parent a (a :: xs) c

namespace Lineage

variable {parent parent' : α → Option α} {a b : α} {xs ys chain : List α}

theorem ne_nil (h : Lineage parent chain) : chain ≠ [] := by
  cases h <;> exact List.cons_ne_nil _ _

/-- The rest of a lineage below a child. -/
theorem tail (h : Lineage parent (a :: b :: xs)) : parent a = some b ∧ Lineage parent (b :: xs) := by
  cases h with
  | child h hrest => exact ⟨h, hrest⟩

theorem of_append (h : Lineage parent (xs ++ a :: ys)) : Lineage parent (a :: ys) := by
  induction xs with
  | nil => exact h
  | cons x xs ih =>
    cases xs with
    | nil => exact h.tail.2
    | cons y xs => exact ih h.tail.2

theorem unique (h : Lineage parent (a :: xs)) (h' : Lineage parent (a :: ys)) : xs = ys := by
  induction xs generalizing a ys with
  | nil =>
    cases h with
    | root h =>
      cases h' with
      | root => rfl
      | child h' => rw [h] at h'; exact absurd h' nofun
  | cons b xs ih =>
    obtain ⟨hab, hxs⟩ := h.tail
    cases h' with
    | root h' => rw [h'] at hab; exact absurd hab nofun
    | child h' hys =>
      rw [h'] at hab
      obtain rfl := Option.some.inj hab
      rw [ih hxs hys]

/-- Nobody is their own ancestor: a lineage ends, and is determined by its head. -/
theorem nodup_self (h : Lineage parent chain) : chain.Nodup := by
  induction h with
  | root => exact List.nodup_singleton _
  | @child a b rest hab hrest ih =>
    refine List.nodup_cons.mpr ⟨fun hmem => ?_, ih⟩
    obtain ⟨us, vs, hsplit⟩ := List.append_of_mem hmem
    have hbelow : Lineage parent (a :: vs) := of_append (hsplit ▸ hrest)
    have hlength := congrArg List.length (unique (.child hab hrest) hbelow)
    rw [hsplit, List.length_append, List.length_cons] at hlength
    omega

/-- Only the parents of the nodes of a lineage matter. -/
theorem congr (h : Lineage parent chain) (heq : ∀ a ∈ chain, parent' a = parent a) :
    Lineage parent' chain := by
  induction h with
  | root h => exact .root ((heq _ (by simp)).trans h)
  | child h _ ih =>
    obtain ⟨ha, hrest⟩ := List.forall_mem_cons.mp heq
    exact .child (ha.trans h) (ih hrest)

/-- The last node of a lineage is its root. -/
theorem getLast_root (h : Lineage parent chain) : ∃ r, chain.getLast? = some r ∧ parent r = none := by
  induction h with
  | root h => exact ⟨_, rfl, h⟩
  | child _ _ ih =>
    obtain ⟨r, hr, hroot⟩ := ih
    exact ⟨r, by rw [List.getLast?_cons_cons]; exact hr, hroot⟩

/-- All but the root have a parent. -/
theorem parent_of_mem (h : Lineage parent chain) (ha : a ∈ chain.dropLast) :
    ∃ b, parent a = some b := by
  induction h with
  | root => exact absurd ha List.not_mem_nil
  | child hab _ ih =>
    rw [List.dropLast_cons_cons] at ha
    rcases List.mem_cons.mp ha with rfl | ha
    · exact ⟨_, hab⟩
    · exact ih ha

section rank

variable {rank : α → Nat}

theorem rank_lt (hrank : ∀ a b, parent a = some b → rank b < rank a)
    (h : Lineage parent (a :: xs)) : ∀ b ∈ xs, rank b < rank a := by
  induction xs generalizing a with
  | nil => intro b hb; exact absurd hb (by simp)
  | cons c xs ih =>
    obtain ⟨hac, hxs⟩ := h.tail
    have hlt := hrank a c hac
    refine List.forall_mem_cons.mpr ⟨hlt, fun b hb => ?_⟩
    exact Nat.lt_trans (ih hxs b hb) hlt

theorem nodup (hrank : ∀ a b, parent a = some b → rank b < rank a) (h : Lineage parent chain) :
    chain.Nodup := by
  induction h with
  | root => simp
  | child h hrest ih =>
    refine List.nodup_cons.mpr ⟨fun hmem => ?_, ih⟩
    exact absurd (rank_lt hrank (.child h hrest) _ hmem) (Nat.lt_irrefl _)

theorem exists_of_rank (hrank : ∀ a b, parent a = some b → rank b < rank a) (a : α) :
    ∃ xs, Lineage parent (a :: xs) := by
  induction hn : rank a using Nat.strongRecOn generalizing a with
  | ind n ih =>
    cases hparent : parent a with
    | none => exact ⟨[], .root hparent⟩
    | some b =>
      obtain ⟨xs, hxs⟩ := ih (rank b) (hn ▸ hrank a b hparent) b rfl
      exact ⟨b :: xs, .child hparent hxs⟩

end rank

end Lineage

namespace Branch

variable {parent : α → Option α} {a c : α} {xs ys chain : List α}

/-- A branch and its lower end begin with the upper end. -/
theorem append_head (h : Branch parent a xs c) (ys : List α) : ∃ tail, xs ++ c :: ys = a :: tail := by
  cases h with
  | nil => exact ⟨ys, rfl⟩
  | cons => exact ⟨_, rfl⟩

theorem append {b : α} (h : Branch parent a xs b) (h' : Branch parent b ys c) :
    Branch parent a (xs ++ ys) c := by
  induction h with
  | nil => exact h'
  | cons hab _ ih => exact .cons hab (ih h')

/-- A branch down to one of its nodes. -/
theorem above_of_mem {x : α} (h : Branch parent a xs c) (hx : x ∈ xs) :
    ∃ ys, Branch parent a ys x := by
  induction h with
  | nil => exact absurd hx List.not_mem_nil
  | cons hab _ ih =>
    rcases List.mem_cons.mp hx with rfl | hx
    · exact ⟨[], .nil _⟩
    · obtain ⟨ys, hys⟩ := ih hx
      exact ⟨_, .cons hab hys⟩

/-- Only the parents of the nodes of a branch matter. -/
theorem congr {parent' : α → Option α} (h : Branch parent a xs c)
    (heq : ∀ x b, parent x = some b → parent' x = some b) : Branch parent' a xs c := by
  induction h with
  | nil => exact .nil _
  | cons hab _ ih => exact .cons (heq _ _ hab) ih

/-- The last block of a branch lies on its end. -/
theorem of_concat {b : α} (h : Branch parent a (xs ++ [b]) c) :
    Branch parent a xs b ∧ parent b = some c := by
  induction xs generalizing a with
  | nil =>
    cases h with
    | cons hbc hrest =>
      cases hrest
      exact ⟨.nil _, hbc⟩
  | cons x xs ih =>
    cases h with
    | cons hab hrest =>
      obtain ⟨hxs, hbc⟩ := ih hrest
      exact ⟨.cons hab hxs, hbc⟩

section rank

variable {rank : α → Nat}

/-- All of a branch is above its lower end, and not above its upper end. -/
theorem rank_bounds (hrank : ∀ a b, parent a = some b → rank b < rank a) (h : Branch parent a xs c) :
    rank c ≤ rank a ∧ ∀ x ∈ xs, rank c < rank x ∧ rank x ≤ rank a := by
  induction h with
  | nil => exact ⟨Nat.le_refl _, fun _ hx => absurd hx nofun⟩
  | cons hab hrest ih =>
    have hlt := hrank _ _ hab
    obtain ⟨hle, hall⟩ := ih
    refine ⟨by omega, List.forall_mem_cons.mpr ⟨⟨by omega, Nat.le_refl _⟩, fun x hx => ?_⟩⟩
    have := hall x hx
    omega

/-- Only its upper end is as high as the upper end. -/
theorem eq_of_rank (hrank : ∀ a b, parent a = some b → rank b < rank a) (h : Branch parent a xs c)
    {x : α} (hx : x ∈ xs) (heq : rank x = rank a) : x = a := by
  cases h with
  | nil => exact absurd hx nofun
  | cons hab hrest =>
    rcases List.mem_cons.mp hx with rfl | hx
    · rfl
    · have := hrank _ _ hab
      have := ((rank_bounds hrank hrest).2 x hx).2
      omega

theorem unique (hrank : ∀ a b, parent a = some b → rank b < rank a) (h : Branch parent a xs c)
    (h' : Branch parent a ys c) : xs = ys := by
  induction h generalizing ys with
  | nil =>
    cases h' with
    | nil => rfl
    | cons hab hrest =>
      have := hrank _ _ hab
      have := (rank_bounds hrank hrest).1
      omega
  | cons hab hrest ih =>
    cases h' with
    | nil =>
      have := hrank _ _ hab
      have := (rank_bounds hrank hrest).1
      omega
    | cons hab' hrest' =>
      rw [hab] at hab'
      obtain rfl := Option.some.inj hab'
      rw [ih hrest']

end rank

/-- A branch from the newest node of a lineage is its beginning. -/
theorem split (h : Branch parent a xs c) (hchain : Lineage parent (a :: chain)) :
    ∃ ys, a :: chain = xs ++ c :: ys := by
  induction h generalizing chain with
  | nil => exact ⟨chain, rfl⟩
  | cons hab _ ih =>
    cases hchain with
    | root h => rw [h] at hab; exact absurd hab nofun
    | child h hrest =>
      rw [h] at hab
      obtain rfl := Option.some.inj hab
      obtain ⟨ys, hys⟩ := ih hrest
      exact ⟨ys, by rw [hys, List.cons_append]⟩

end Branch

/-! ## The way back up -/

/-- The node above `p` on a path. -/
def nextIn [DecidableEq α] : List α → α → Option α
  | a :: b :: rest, p => if p = b then some a else nextIn (b :: rest) p
  | _, _ => none

section nextIn

variable [DecidableEq α] {a b p : α} {rest chain : List α}

theorem nextIn_of_notMem (h : p ∉ chain) : nextIn chain p = none := by
  induction chain with
  | nil => rfl
  | cons a chain ih =>
    cases chain with
    | nil => rfl
    | cons b rest =>
      rw [List.mem_cons, not_or] at h
      rw [nextIn, if_neg (List.ne_of_not_mem_cons h.2), ih h.2]

/-- Nothing is above the newest node. -/
theorem nextIn_head (h : (a :: rest).Nodup) : nextIn (a :: rest) a = none := by
  cases rest with
  | nil => rfl
  | cons b rest =>
    obtain ⟨ha, hrest⟩ := List.nodup_cons.mp h
    rw [nextIn, if_neg (List.ne_of_not_mem_cons ha), nextIn_of_notMem ha]

theorem nextIn_cons_cons (a b : α) (rest : List α) :
    nextIn (a :: b :: rest) = Function.update (nextIn (b :: rest)) b (some a) := by
  funext p
  rw [nextIn, Function.update_apply]

/-- Taking the newest node off a path. -/
theorem update_nextIn_tail (h : (b :: rest).Nodup) :
    Function.update (nextIn (a :: b :: rest)) b none = nextIn (b :: rest) := by
  funext p
  rw [nextIn_cons_cons, Function.update_idem, Function.update_apply]
  split
  · next heq => rw [heq, nextIn_head h]
  · rfl

/-- A path that is walked the other way gets a new end. -/
theorem Lineage.snoc {next : α → Option α} (h : Lineage next chain) (hlast : chain.getLast? = some b)
    (ha : a ∉ chain) (hend : next a = none) :
    Lineage (Function.update next b (some a)) (chain ++ [a]) := by
  have hnodup := h.nodup_self
  induction h with
  | root =>
    obtain rfl := Option.some.inj hlast
    refine .child (Function.update_self ..) (.root ?_)
    rw [Function.update_of_ne, hend]
    rintro rfl
    exact ha (List.mem_singleton_self _)
  | @child x y rest hxy hrest ih =>
    obtain ⟨hx, hnodup⟩ := List.nodup_cons.mp hnodup
    rw [List.getLast?_cons_cons] at hlast
    refine .child ?_ (ih hlast (fun hmem => ha (List.mem_cons_of_mem _ hmem)) hnodup)
    rw [Function.update_of_ne, hxy]
    rintro rfl
    exact hx (List.mem_of_getLast? hlast)

/-- From its lower end the links lead along the path. -/
theorem lineage_nextIn_reverse (hne : chain ≠ []) (hnodup : chain.Nodup) :
    Lineage (nextIn chain) chain.reverse := by
  induction chain with
  | nil => exact absurd rfl hne
  | cons a chain ih =>
    cases chain with
    | nil => exact .root rfl
    | cons b rest =>
      obtain ⟨ha, hrest⟩ := List.nodup_cons.mp hnodup
      rw [nextIn_cons_cons, List.reverse_cons]
      refine (ih (List.cons_ne_nil _ _) hrest).snoc ?_ ?_ (nextIn_of_notMem ha)
      · rw [List.getLast?_reverse, List.head?_cons]
      · exact fun hmem => ha (List.mem_reverse.mp hmem)

end nextIn
