import Mathlib.Data.Finset.Option
import Mathlib.Data.Finset.Union
import Mathlib.Logic.Function.Basic
import Mathlib.Logic.Relation

/-!
# Merging sets that overlap

Sets come one after the other, and each is merged with the groups that it hits.  The groups are
behind pointers: a map tells in which group an element is, and a merged group gets a new pointer.

Results: `Merging.inv_mergeAll` and what follows from it, `Merging.Inv.connected_iff` (two elements
end up in one group exactly when a chain of sets connects them) and `Merging.Inv.disjoint`.
-/

namespace Merging

variable {α : Type}

/-- Two elements are in one of the sets. -/
def Linked (sets : List (Finset α)) (a b : α) : Prop := ∃ s ∈ sets, a ∈ s ∧ b ∈ s

instance (sets : List (Finset α)) : Std.Symm (Linked sets) where
  symm a b h := by
    obtain ⟨s, hs, ha, hb⟩ := h
    exact ⟨s, hs, hb, ha⟩

theorem Linked.append {sets : List (Finset α)} {a b : α} (h : Linked sets a b) (s : Finset α) :
    Linked (sets ++ [s]) a b := by
  obtain ⟨t, ht, hab⟩ := h
  exact ⟨t, List.mem_append_left _ ht, hab⟩

/-- Groups behind pointers. -/
structure Groups (α : Type) where
  /-- The next pointer. -/
  next : Nat
  live : Finset Nat
  group : Nat → Finset α
  groupOf : α → Option Nat

def empty : Groups α := ⟨0, ∅, fun _ => ∅, fun _ => none⟩

variable [DecidableEq α]

/-- The groups that a set hits. -/
def hits (m : Groups α) (s : Finset α) : Finset Nat := s.biUnion fun a => (m.groupOf a).toFinset

/-- A set with the groups that it hits. -/
def merged (m : Groups α) (s : Finset α) : Finset α := s ∪ (hits m s).biUnion m.group

def merge (m : Groups α) (s : Finset α) : Groups α where
  next := m.next + 1
  live := insert m.next (m.live \ hits m s)
  group := Function.update m.group m.next (merged m s)
  groupOf a := if a ∈ merged m s then some m.next else m.groupOf a

def mergeAll (sets : List (Finset α)) : Groups α := sets.foldl merge empty

/-- The groups that are left. -/
def result (m : Groups α) : Finset (Finset α) := m.live.image m.group

/-- What the groups are after some sets. -/
structure Inv (sets : List (Finset α)) (m : Groups α) : Prop where
  fresh : ∀ p ∈ m.live, p < m.next
  groupOf_iff : ∀ a p, m.groupOf a = some p ↔ p ∈ m.live ∧ a ∈ m.group p
  covered : ∀ a, (∃ p, m.groupOf a = some p) ↔ ∃ s ∈ sets, a ∈ s
  closed : ∀ a b, Linked sets a b → m.groupOf a = m.groupOf b
  connected : ∀ a b p, m.groupOf a = some p → m.groupOf b = some p →
    Relation.ReflTransGen (Linked sets) a b
  empty_iff : (∃ p ∈ m.live, m.group p = ∅) ↔ ∅ ∈ sets

omit [DecidableEq α] in
theorem inv_empty : Inv ([] : List (Finset α)) empty where
  fresh p hp := absurd hp (Finset.notMem_empty p)
  groupOf_iff a p := ⟨(fun h => by cases h), fun h => absurd h.1 (Finset.notMem_empty p)⟩
  covered a := by
    constructor
    · rintro ⟨p, hp⟩
      cases hp
    · rintro ⟨s, hs, -⟩
      cases hs
  closed a b h := rfl
  connected a b p h := by cases h
  empty_iff := by
    constructor
    · rintro ⟨p, hp, -⟩
      exact absurd hp (Finset.notMem_empty p)
    · intro h
      cases h

section step

variable {sets : List (Finset α)} {m : Groups α} {s : Finset α} {a : α} {p : Nat}

omit [DecidableEq α] in
theorem mem_hits : p ∈ hits m s ↔ ∃ a ∈ s, m.groupOf a = some p := by
  unfold hits
  simp only [Finset.mem_biUnion, Option.mem_toFinset, Option.mem_def]

theorem mem_merged : a ∈ merged m s ↔ a ∈ s ∨ ∃ p ∈ hits m s, a ∈ m.group p := by
  unfold merged
  rw [Finset.mem_union, Finset.mem_biUnion]

theorem mem_live_merge : p ∈ (merge m s).live ↔ p = m.next ∨ p ∈ m.live ∧ p ∉ hits m s := by
  show p ∈ insert m.next (m.live \ hits m s) ↔ _
  rw [Finset.mem_insert, Finset.mem_sdiff]

theorem group_merge_next : (merge m s).group m.next = merged m s := Function.update_self _ _ _

theorem group_merge_of_ne (h : p ≠ m.next) : (merge m s).group p = m.group p :=
  Function.update_of_ne h _ _

variable (h : Inv sets m)

include h

omit [DecidableEq α] in
theorem Inv.mem_live_of_hits (hp : p ∈ hits m s) : p ∈ m.live := by
  obtain ⟨a, -, ha⟩ := mem_hits.mp hp
  exact ((h.groupOf_iff a p).mp ha).1

/-- An element of the merged group was in a group that has been hit, or is in the set. -/
theorem Inv.mem_merged_iff (ha : m.groupOf a = some p) : a ∈ merged m s ↔ p ∈ hits m s := by
  constructor
  · intro hmem
    rcases mem_merged.mp hmem with hs | ⟨q, hq, haq⟩
    · exact mem_hits.mpr ⟨a, hs, ha⟩
    · rw [(h.groupOf_iff a q).mpr ⟨h.mem_live_of_hits hq, haq⟩] at ha
      rwa [← Option.some.inj ha]
  · exact fun hp => mem_merged.mpr (.inr ⟨p, hp, ((h.groupOf_iff a p).mp ha).2⟩)

/-- An element of the merged group is connected to one of the set. -/
theorem Inv.connected_merged (ha : a ∈ merged m s) :
    ∃ c ∈ s, Relation.ReflTransGen (Linked sets) a c := by
  rcases mem_merged.mp ha with hs | ⟨p, hp, hap⟩
  · exact ⟨a, hs, .refl⟩
  · obtain ⟨c, hc, hcp⟩ := mem_hits.mp hp
    exact ⟨c, hc, h.connected a c p
      ((h.groupOf_iff a p).mpr ⟨h.mem_live_of_hits hp, hap⟩) hcp⟩

theorem Inv.groupOf_merge_iff (a : α) (p : Nat) : (merge m s).groupOf a = some p ↔
    p ∈ (merge m s).live ∧ a ∈ (merge m s).group p := by
  show (if a ∈ merged m s then some m.next else m.groupOf a) = some p ↔ _
  rw [mem_live_merge]
  by_cases hmem : a ∈ merged m s
  · rw [if_pos hmem]
    constructor
    · intro heq
      obtain rfl := Option.some.inj heq
      rw [group_merge_next]
      exact ⟨.inl rfl, hmem⟩
    · rintro ⟨rfl | ⟨hlive, hhit⟩, hgroup⟩
      · rfl
      · rw [group_merge_of_ne (h.fresh p hlive).ne] at hgroup
        have hold := (h.groupOf_iff a p).mpr ⟨hlive, hgroup⟩
        exact absurd ((h.mem_merged_iff hold).mp hmem) hhit
  · rw [if_neg hmem]
    constructor
    · intro hold
      have hlive := ((h.groupOf_iff a p).mp hold)
      rw [group_merge_of_ne (h.fresh p hlive.1).ne]
      exact ⟨.inr ⟨hlive.1, fun hhit => hmem ((h.mem_merged_iff hold).mpr hhit)⟩, hlive.2⟩
    · rintro ⟨rfl | ⟨hlive, -⟩, hgroup⟩
      · rw [group_merge_next] at hgroup
        exact absurd hgroup hmem
      · rw [group_merge_of_ne (h.fresh p hlive).ne] at hgroup
        exact (h.groupOf_iff a p).mpr ⟨hlive, hgroup⟩

/-- One more set. -/
theorem Inv.step : Inv (sets ++ [s]) (merge m s) where
  fresh p hp := by
    rcases mem_live_merge.mp hp with rfl | ⟨hlive, -⟩
    · exact Nat.lt_succ_self _
    · exact (h.fresh p hlive).trans (Nat.lt_succ_self _)
  groupOf_iff a p := h.groupOf_merge_iff a p
  covered a := by
    show (∃ p, (if a ∈ merged m s then some m.next else m.groupOf a) = some p) ↔ _
    by_cases hmem : a ∈ merged m s
    · rw [if_pos hmem]
      refine ⟨fun _ => ?_, fun _ => ⟨_, rfl⟩⟩
      rcases mem_merged.mp hmem with hs | ⟨p, hp, hap⟩
      · exact ⟨s, List.mem_append_right _ List.mem_cons_self, hs⟩
      · obtain ⟨t, ht, hat⟩ := (h.covered a).mp
          ⟨p, (h.groupOf_iff a p).mpr ⟨h.mem_live_of_hits hp, hap⟩⟩
        exact ⟨t, List.mem_append_left _ ht, hat⟩
    · rw [if_neg hmem, h.covered a]
      constructor
      · rintro ⟨t, ht, hat⟩
        exact ⟨t, List.mem_append_left _ ht, hat⟩
      · rintro ⟨t, ht, hat⟩
        rcases List.mem_append.mp ht with ht | ht
        · exact ⟨t, ht, hat⟩
        · rw [List.mem_singleton.mp ht] at hat
          exact absurd (mem_merged.mpr (.inl hat)) hmem
  closed a b hab := by
    show (if a ∈ merged m s then some m.next else m.groupOf a) =
      if b ∈ merged m s then some m.next else m.groupOf b
    obtain ⟨t, ht, ha, hb⟩ := hab
    rcases List.mem_append.mp ht with ht | ht
    · -- elements of an earlier set are in one group, which is hit or not
      obtain ⟨p, hp⟩ := (h.covered a).mpr ⟨t, ht, ha⟩
      have hq : m.groupOf b = some p := (h.closed a b ⟨t, ht, ha, hb⟩).symm.trans hp
      rw [hp, hq]
      by_cases hhit : p ∈ hits m s
      · rw [if_pos ((h.mem_merged_iff hp).mpr hhit), if_pos ((h.mem_merged_iff hq).mpr hhit)]
      · rw [if_neg fun hmem => hhit ((h.mem_merged_iff hp).mp hmem),
          if_neg fun hmem => hhit ((h.mem_merged_iff hq).mp hmem)]
    · rw [List.mem_singleton.mp ht] at ha hb
      rw [if_pos (mem_merged.mpr (.inl ha)), if_pos (mem_merged.mpr (.inl hb))]
  connected a b p ha hb := by
    have hmono : ∀ a b, Relation.ReflTransGen (Linked sets) a b →
        Relation.ReflTransGen (Linked (sets ++ [s])) a b := fun a b hab =>
      hab.lift id fun _ _ hlinked => hlinked.append s
    obtain ⟨hlive, hap⟩ := (h.groupOf_merge_iff a p).mp ha
    obtain ⟨-, hbp⟩ := (h.groupOf_merge_iff b p).mp hb
    rcases mem_live_merge.mp hlive with rfl | ⟨hold, -⟩
    · rw [group_merge_next] at hap hbp
      obtain ⟨c, hc, hac⟩ := h.connected_merged hap
      obtain ⟨d, hd, hbd⟩ := h.connected_merged hbp
      have hcd : Linked (sets ++ [s]) c d :=
        ⟨s, List.mem_append_right _ List.mem_cons_self, hc, hd⟩
      have hdb : Relation.ReflTransGen (Linked sets) d b :=
        Relation.ReflTransGen.stdSymm.symm _ _ hbd
      exact ((hmono _ _ hac).tail hcd).trans (hmono _ _ hdb)
    · rw [group_merge_of_ne (h.fresh p hold).ne] at hap hbp
      exact hmono _ _ (h.connected a b p ((h.groupOf_iff a p).mpr ⟨hold, hap⟩)
        ((h.groupOf_iff b p).mpr ⟨hold, hbp⟩))
  empty_iff := by
    rw [List.mem_append, List.mem_singleton, ← h.empty_iff]
    constructor
    · rintro ⟨p, hp, hempty⟩
      rcases mem_live_merge.mp hp with rfl | ⟨hlive, -⟩
      · rw [group_merge_next] at hempty
        refine .inr (Finset.subset_empty.mp fun a ha => ?_).symm
        rw [← hempty]
        exact mem_merged.mpr (.inl ha)
      · rw [group_merge_of_ne (h.fresh p hlive).ne] at hempty
        exact .inl ⟨p, hlive, hempty⟩
    · rintro (⟨p, hlive, hempty⟩ | rfl)
      · refine ⟨p, mem_live_merge.mpr (.inr ⟨hlive, fun hhit => ?_⟩), ?_⟩
        · obtain ⟨a, -, ha⟩ := mem_hits.mp hhit
          have hap := ((h.groupOf_iff a p).mp ha).2
          rw [hempty] at hap
          exact absurd hap (Finset.notMem_empty a)
        · rw [group_merge_of_ne (h.fresh p hlive).ne, hempty]
      · refine ⟨m.next, mem_live_merge.mpr (.inl rfl), ?_⟩
        rw [group_merge_next]
        rfl

end step

theorem inv_mergeAll (sets : List (Finset α)) : Inv sets (mergeAll sets) := by
  have hfold : ∀ (rest done : List (Finset α)) (m : Groups α), Inv done m →
      Inv (done ++ rest) (rest.foldl merge m) := by
    intro rest
    induction rest with
    | nil =>
      intro done m h
      rwa [List.append_nil]
    | cons s rest ih =>
      intro done m h
      have hnext := ih _ _ (h.step (s := s))
      rwa [List.append_assoc] at hnext
  exact hfold sets [] empty inv_empty

section result

variable {sets : List (Finset α)} {m : Groups α} (h : Inv sets m)

include h

theorem Inv.mem_result {a : α} {g : Finset α} (hg : g ∈ result m) (ha : a ∈ g) :
    ∃ p, m.groupOf a = some p ∧ m.group p = g := by
  obtain ⟨p, hp, rfl⟩ := Finset.mem_image.mp hg
  exact ⟨p, (h.groupOf_iff a p).mpr ⟨hp, ha⟩, rfl⟩

/-- The groups are disjoint. -/
theorem Inv.disjoint {g g' : Finset α} (hg : g ∈ result m) (hg' : g' ∈ result m) {a : α}
    (ha : a ∈ g) (ha' : a ∈ g') : g = g' := by
  obtain ⟨p, hp, rfl⟩ := h.mem_result hg ha
  obtain ⟨q, hq, rfl⟩ := h.mem_result hg' ha'
  rw [Option.some.inj (hp.symm.trans hq)]

/-- What is in a group has been in a set. -/
theorem Inv.mem_result_iff (a : α) : (∃ g ∈ result m, a ∈ g) ↔ ∃ s ∈ sets, a ∈ s := by
  rw [← h.covered a]
  constructor
  · rintro ⟨g, hg, ha⟩
    obtain ⟨p, hp, -⟩ := h.mem_result hg ha
    exact ⟨p, hp⟩
  · rintro ⟨p, hp⟩
    obtain ⟨hlive, hap⟩ := (h.groupOf_iff a p).mp hp
    exact ⟨m.group p, Finset.mem_image_of_mem _ hlive, hap⟩

theorem Inv.empty_mem_result : ∅ ∈ result m ↔ ∅ ∈ sets := by
  rw [← h.empty_iff, result, Finset.mem_image]

/-- Two elements are in one group exactly when a chain of sets connects them. -/
theorem Inv.connected_iff {a b : α} (ha : ∃ s ∈ sets, a ∈ s) :
    (∃ g ∈ result m, a ∈ g ∧ b ∈ g) ↔ Relation.ReflTransGen (Linked sets) a b := by
  constructor
  · rintro ⟨g, hg, hag, hbg⟩
    obtain ⟨p, hp, rfl⟩ := h.mem_result hg hag
    obtain ⟨q, hq, heq⟩ := h.mem_result hg hbg
    have hlive := ((h.groupOf_iff a p).mp hp).1
    exact h.connected a b p hp ((h.groupOf_iff b p).mpr ⟨hlive, hbg⟩)
  · intro hab
    have hsame : m.groupOf a = m.groupOf b := by
      induction hab with
      | refl => rfl
      | tail _ hlinked ih => exact ih.trans (h.closed _ _ hlinked)
    obtain ⟨p, hp⟩ := (h.covered a).mpr ha
    obtain ⟨hlive, hap⟩ := (h.groupOf_iff a p).mp hp
    exact ⟨m.group p, Finset.mem_image_of_mem _ hlive, hap,
      ((h.groupOf_iff b p).mp (hsame.symm.trans hp)).2⟩

end result

end Merging
