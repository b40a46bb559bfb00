import NoLimitCoin.Lib.Map

/-!
# Maps that correspond

`Map.Rel R` relates two maps that have the same keys, and under every key values that `R`
relates.

Results: `Map.Rel.insert`, `Map.Rel.lookup`, `Map.Rel.size_eq`.
-/

namespace Map

variable {K V W : Type} [Ord K] [Std.TransOrd K]

/-- Two maps with the same keys and corresponding values. -/
def Rel (R : K → V → W → Prop) (m₁ : Map K V) (m₂ : Map K W) : Prop :=
  ∀ k : K, Option.Rel (R k) m₁[k]? m₂[k]?

namespace Rel

variable {R : K → V → W → Prop} {m₁ : Map K V} {m₂ : Map K W}

theorem lookup (h : Rel R m₁ m₂) {k : K} {a : V} (ha : m₁[k]? = some a) :
    ∃ b, m₂[k]? = some b ∧ R k a b := by
  have hk := h k
  rw [ha] at hk
  cases hb : m₂[k]? with
  | none =>
    rw [hb] at hk
    cases hk
  | some b =>
    rw [hb] at hk
    cases hk with
    | some hab => exact ⟨b, rfl, hab⟩

theorem lookup_none (h : Rel R m₁ m₂) {k : K} (ha : m₁[k]? = none) : m₂[k]? = none := by
  have hk := h k
  rw [ha] at hk
  cases hb : m₂[k]? with
  | none => rfl
  | some b =>
    rw [hb] at hk
    cases hk

theorem contains_eq (h : Rel R m₁ m₂) (k : K) : m₁.contains k = m₂.contains k := by
  cases ha : m₁[k]? with
  | none =>
    rw [(contains_eq_false_iff m₁ k).mpr ha, (contains_eq_false_iff m₂ k).mpr (h.lookup_none ha)]
  | some a =>
    obtain ⟨b, hb, -⟩ := h.lookup ha
    rw [(contains_iff m₁ k).mpr ⟨a, ha⟩, (contains_iff m₂ k).mpr ⟨b, hb⟩]

variable [Std.LawfulEqOrd K]

theorem insert [DecidableEq K] (h : Rel R m₁ m₂) {k : K} {a : V} {b : W} (hab : R k a b) :
    Rel R (m₁.insert k a) (m₂.insert k b) := by
  intro l
  rw [getElem?_insert, getElem?_insert]
  split
  · next heq => exact heq ▸ .some hab
  · exact h l

/-- The keys are the same, and a map lists each of its keys once. -/
theorem size_eq (h : Rel R m₁ m₂) : m₁.size = m₂.size := by
  have hnodup : ∀ {U : Type} (m : Map K U), m.keys.Nodup := by
    intro U m
    refine m.distinct_keys.imp ?_
    intro a b hab heq
    exact hab (by rw [heq]; exact Std.ReflCmp.compare_self)
  rw [← Std.ExtTreeMap.length_keys, ← Std.ExtTreeMap.length_keys]
  refine ((List.perm_ext_iff_of_nodup (hnodup m₁) (hnodup m₂)).mpr fun k => ?_).length_eq
  rw [Std.ExtTreeMap.mem_keys, Std.ExtTreeMap.mem_keys, ← Std.ExtTreeMap.contains_iff_mem,
    ← Std.ExtTreeMap.contains_iff_mem, h.contains_eq k]

end Rel

end Map
