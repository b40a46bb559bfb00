import Mathlib

/-!
# Taking out what depends on something

A relation `r a b` says that `b` depends on `a` directly.  Taking a member out of a set together
with everything that depends on it leaves the dependencies among the others as they are, in
whatever order several members are taken out.

Results:

1. `reach_outside`: outside of a closed set, what can be reached does not change when the set is
   taken out.
2. `card_reach_lt`: along an edge of an acyclic relation there is less to reach, which bounds a
   recursion over the dependants.
-/

namespace Dependents

open Relation

variable {α : Type} {r r' : α → α → Prop} {s t : α → Prop} {a b : α}

/-- What depends on a member is a member. -/
def Closed (r : α → α → Prop) (s : α → Prop) : Prop := ∀ ⦃a b⦄, s a → r a b → s b

theorem Closed.reach (h : Closed r s) (ha : s a) (hab : ReflTransGen r a b) : s b := by
  induction hab with
  | refl => exact ha
  | tail _ hbc ih => exact h ih hbc

theorem Closed.or (hs : Closed r s) (ht : Closed r t) : Closed r fun x => s x ∨ t x := by
  intro a b hab hr
  rcases hab with ha | ha
  · exact .inl (hs ha hr)
  · exact .inr (ht ha hr)

/-- `r'` is `r` without the members of `s`. -/
def Outside (r : α → α → Prop) (s : α → Prop) (r' : α → α → Prop) : Prop :=
  ∀ a b, r' a b ↔ r a b ∧ ¬ s a ∧ ¬ s b

/-- A path to something outside of a closed set lies outside of it. -/
theorem reach_outside (hs : Closed r s) (hr : Outside r s r') (hb : ¬ s b) :
    ReflTransGen r' a b ↔ ReflTransGen r a b := by
  constructor
  · intro h
    exact ReflTransGen.mono (fun x y hxy => ((hr x y).mp hxy).1) _ _ h
  · intro h
    induction h with
    | refl => exact .refl
    | @tail x y hax hxy ih =>
      have hx : ¬ s x := fun hsx => hb (hs hsx hxy)
      exact (ih hx).tail ((hr x y).mpr ⟨hxy, hx, hb⟩)

open Classical in
/-- Less can be reached from `b` than from `a`, when `b` depends on `a`. -/
theorem card_reach_lt {u u' : Finset α} (hacyclic : ¬ TransGen r a a) (hab : r a b) (ha : a ∈ u)
    (hsub : u' ⊆ u) (hr : ∀ x y, r' x y → r x y) :
    (u'.filter (ReflTransGen r' b)).card < (u.filter (ReflTransGen r a)).card := by
  refine Finset.card_lt_card (Finset.ssubset_iff_of_subset ?_ |>.mpr ⟨a, ?_, ?_⟩)
  · intro x hx
    obtain ⟨hx, hbx⟩ := Finset.mem_filter.mp hx
    exact Finset.mem_filter.mpr ⟨hsub hx, (ReflTransGen.mono hr _ _ hbx).head hab⟩
  · exact Finset.mem_filter.mpr ⟨ha, .refl⟩
  · intro hmem
    have hba := ReflTransGen.mono hr _ _ (Finset.mem_filter.mp hmem).2
    exact hacyclic (TransGen.head' hab hba)

end Dependents
