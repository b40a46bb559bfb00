import Mathlib

/-!
# Ordered maps

An ordered map with extensional equality, in the role of `std::map`: iteration is in key
order and two maps with the same bindings are equal.  The lemmas restate the lookup laws of
`Std.ExtTreeMap` for keys whose comparison decides equality, so that a proof reads `k = a`
and never `compare k a = .eq`.

Results: `Map.getElem?_insert`, `Map.getElem?_erase`, `Map.ext`, `Map.foldl_insertIfNew_toList`.
-/

/-- An ordered map from `K` to `V`. -/
abbrev Map (K : Type) (V : Type) [Ord K] := Std.ExtTreeMap K V compare

/-- Comparison through an injective function into a lawfully ordered type is lawful. -/
theorem lawfulEqOrd_of_injective {K L : Type} [Ord K] [Ord L] [Std.LawfulEqOrd L] (f : K → L)
    (hf : Function.Injective f) (h : ∀ a b : K, compare a b = compare (f a) (f b)) :
    Std.LawfulEqOrd K where
  compare_self {a} := by rw [h]; exact Std.ReflCmp.compare_self
  eq_of_compare {a b} hab := hf (Std.LawfulEqCmp.eq_of_compare ((h a b).symm.trans hab))

/-- Comparison through a function into a transitively ordered type is transitive. -/
theorem transOrd_of_map {K L : Type} [Ord K] [Ord L] [Std.TransOrd L] (f : K → L)
    (h : ∀ a b : K, compare a b = compare (f a) (f b)) : Std.TransOrd K where
  eq_swap {a b} := by rw [h a b, h b a]; exact Std.OrientedCmp.eq_swap
  isLE_trans {a b c} hab hbc := by
    rw [h] at *
    exact Std.TransCmp.isLE_trans hab hbc

namespace Map

variable {K V : Type} [Ord K] [Std.TransOrd K]

theorem contains_iff (m : Map K V) (k : K) : m.contains k = true ↔ ∃ v, m[k]? = some v := by
  rw [Std.ExtTreeMap.contains_eq_isSome_getElem?, Option.isSome_iff_exists]

theorem contains_eq_false_iff (m : Map K V) (k : K) : m.contains k = false ↔ m[k]? = none := by
  rw [Std.ExtTreeMap.contains_eq_isSome_getElem?, Option.isSome_eq_false_iff,
    Option.isNone_iff_eq_none]

@[simp] theorem getElem?_empty (k : K) : (∅ : Map K V)[k]? = none :=
  Std.ExtTreeMap.getElem?_empty

/-! ### Inserting what is not there yet -/

theorem nodup_toList (m : Map K V) : m.toList.Nodup := by
  refine m.distinct_keys_toList.imp ?_
  intro a b hab heq
  exact hab (by rw [heq]; exact Std.ReflCmp.compare_self)

theorem toList_insertIfNew_perm (m : Map K V) (item : K × V) (h : item.1 ∉ m) :
    (m.insertIfNew item.1 item.2).toList.Perm (item :: m.toList) := by
  have hitem : item ∉ m.toList := by
    intro hmem
    refine h ((Std.ExtTreeMap.mem_iff_isSome_getElem?).mpr ?_)
    rw [(Std.ExtTreeMap.mem_toList_iff_getKey?_eq_some_and_getElem?_eq_some.mp hmem).2]
    rfl
  refine (List.perm_ext_iff_of_nodup (nodup_toList _)
    (List.nodup_cons.mpr ⟨hitem, nodup_toList m⟩)).mpr fun other => ?_
  obtain ⟨k, v⟩ := other
  rw [List.mem_cons, Std.ExtTreeMap.mem_toList_iff_getKey?_eq_some_and_getElem?_eq_some,
    Std.ExtTreeMap.mem_toList_iff_getKey?_eq_some_and_getElem?_eq_some,
    Std.ExtTreeMap.getKey?_insertIfNew, Std.ExtTreeMap.getElem?_insertIfNew]
  by_cases heq : compare item.1 k = .eq
  · have hk : m[k]? = none := by
      refine Std.ExtTreeMap.getElem?_eq_none ?_
      rw [← Std.ExtTreeMap.mem_congr heq]
      exact h
    rw [if_pos ⟨heq, h⟩, if_pos ⟨heq, h⟩, hk]
    constructor
    · rintro ⟨hkey, hvalue⟩
      exact .inl (Prod.ext (Option.some.inj hkey).symm (Option.some.inj hvalue).symm)
    · rintro (hsame | ⟨-, hnone⟩)
      · rw [← hsame]
        exact ⟨rfl, rfl⟩
      · cases hnone
  · rw [if_neg fun h => heq h.1, if_neg fun h => heq h.1]
    refine ⟨.inr, fun h => h.resolve_left fun hsame => heq ?_⟩
    rw [← hsame]
    exact Std.ReflCmp.compare_self

/-- The bindings of a map, inserted one by one, give the map. -/
theorem foldl_insertIfNew_toList (m : Map K V) :
    m.toList.foldl (fun m item => m.insertIfNew item.1 item.2) ∅ = m := by
  have hperm : ∀ (l : List (K × V)) (m₀ : Map K V),
      l.Pairwise (fun a b => ¬ compare a.1 b.1 = .eq) → (∀ item ∈ l, item.1 ∉ m₀) →
      (l.foldl (fun m item => m.insertIfNew item.1 item.2) m₀).toList.Perm (l ++ m₀.toList) := by
    intro l
    induction l with
    | nil => exact fun m₀ _ _ => .rfl
    | cons item l ih =>
      intro m₀ hdistinct hnew
      rw [List.pairwise_cons] at hdistinct
      rw [List.forall_mem_cons] at hnew
      refine (ih _ hdistinct.2 fun other hother hmem => ?_).trans ?_
      · rcases Std.ExtTreeMap.mem_insertIfNew.mp hmem with heq | hmem
        · exact hdistinct.1 other hother heq
        · exact hnew.2 other hother hmem
      · exact ((toList_insertIfNew_perm m₀ item hnew.1).append_left l).trans List.perm_middle
  refine Std.ExtTreeMap.ext_toList ?_
  have hall := hperm m.toList ∅ m.distinct_keys_toList fun _ _ => Std.ExtTreeMap.not_mem_empty
  rwa [Std.ExtTreeMap.toList_eq_nil_iff.mpr rfl, List.append_nil] at hall

section lawful

variable [Std.LawfulEqOrd K]

theorem ext {m₁ m₂ : Map K V} (h : ∀ k : K, m₁[k]? = m₂[k]?) : m₁ = m₂ :=
  Std.ExtTreeMap.ext_getElem? h

theorem mem_toList (m : Map K V) (k : K) (v : V) : (k, v) ∈ m.toList ↔ m[k]? = some v :=
  Std.ExtTreeMap.mem_toList_iff_getElem?_eq_some

/-- No key is bound twice in the list of bindings. -/
theorem pairwise_toList (m : Map K V) : m.toList.Pairwise fun a b => a.1 ≠ b.1 := by
  refine m.distinct_keys_toList.imp ?_
  intro a b hab heq
  exact hab (by rw [heq]; exact Std.ReflCmp.compare_self)

@[simp] theorem getElem?_insert [DecidableEq K] (m : Map K V) (k a : K) (v : V) :
    (m.insert k v)[a]? = if k = a then some v else m[a]? := by
  rw [Std.ExtTreeMap.getElem?_insert]
  simp only [Std.LawfulEqCmp.compare_eq_iff_eq]

theorem getElem?_insert_of_ne [DecidableEq K] (m : Map K V) {k a : K} (v : V) (h : k ≠ a) :
    (m.insert k v)[a]? = m[a]? := by
  rw [getElem?_insert, if_neg h]

@[simp] theorem getElem?_erase [DecidableEq K] (m : Map K V) (k a : K) :
    (m.erase k)[a]? = if k = a then none else m[a]? := by
  rw [Std.ExtTreeMap.getElem?_erase]
  simp only [Std.LawfulEqCmp.compare_eq_iff_eq]

/-- Inserting bindings of other keys changes nothing for a key. -/
theorem getElem?_foldl_insert_of_ne {W : Type} [DecidableEq K] {f : K × V → W}
    {l : List (K × V)} {k : K} (h : ∀ item ∈ l, item.1 ≠ k) (m : Map K W) :
    (l.foldl (fun m item => m.insert item.1 (f item)) m)[k]? = m[k]? := by
  induction l generalizing m with
  | nil => rfl
  | cons first l ih =>
    rw [List.forall_mem_cons] at h
    rw [List.foldl_cons, ih h.2, getElem?_insert_of_ne _ _ h.1]

/-- What is inserted for the bindings of a list without double keys is found again. -/
theorem getElem?_foldl_insert_of_mem {W : Type} [DecidableEq K] {f : K × V → W} {l : List (K × V)}
    (hdistinct : l.Pairwise fun a b => a.1 ≠ b.1) {item : K × V} (h : item ∈ l) (m : Map K W) :
    (l.foldl (fun m item => m.insert item.1 (f item)) m)[item.1]? = some (f item) := by
  induction l generalizing m with
  | nil => cases h
  | cons first l ih =>
    rw [List.pairwise_cons] at hdistinct
    rcases List.mem_cons.mp h with rfl | h
    · rw [List.foldl_cons, getElem?_foldl_insert_of_ne (fun other hother =>
        (hdistinct.1 other hother).symm), getElem?_insert, if_pos rfl]
    · exact ih hdistinct.2 h _

end lawful

end Map
