import NoLimitCoin.Lib.Map

/-!
# Tallies

A map of amounts in which a key that is missing has the amount zero, as a program keeps it that
adds to an entry of a `std::map` which is there from the first access on.

Results:

1. `foldlM_measure`: a loop whose steps add to a quantity adds the sum.
2. `Map.sum_insert`, `Map.sum_single`: sums over the bindings of a map.
3. `get_addAll`: the amount of a key is the sum of what was added for it.
4. `total_addAll`: the total grows by all that was added.
-/

/-- What every step adds, the whole loop adds. -/
theorem foldlM_measure {ε σ α G : Type} [AddCommMonoid G] (μ : σ → G) {g : α → G}
    {step : σ → α → Except ε σ} {items : List α} {s r : σ} (h : items.foldlM step s = .ok r)
    (hstep : ∀ s a s', step s a = .ok s' → μ s' = μ s + g a) : μ r = μ s + (items.map g).sum := by
  induction items generalizing s with
  | nil =>
    cases h
    simp
  | cons a items ih =>
    rw [List.foldlM_cons] at h
    cases hs : step s a with
    | error e =>
      rw [hs] at h
      cases h
    | ok s' =>
      rw [hs] at h
      rw [ih h, hstep s a s' hs, List.map_cons, List.sum_cons, add_assoc]

namespace Map

variable {K V : Type} [Ord K] [Std.TransOrd K] [Std.LawfulEqOrd K] [DecidableEq K]

theorem toList_insert_perm (m : Map K V) (k : K) (v : V) :
    (m.insert k v).toList.Perm ((k, v) :: (m.erase k).toList) := by
  have hfresh : (k, v) ∉ (m.erase k).toList := by
    rw [mem_toList, getElem?_erase, if_pos rfl]
    exact Option.some_ne_none v ∘ Eq.symm
  refine (List.perm_ext_iff_of_nodup (nodup_toList _)
    (List.nodup_cons.mpr ⟨hfresh, nodup_toList _⟩)).mpr ?_
  rintro ⟨a, w⟩
  rw [List.mem_cons, mem_toList, mem_toList, getElem?_insert, getElem?_erase]
  by_cases hka : k = a
  · subst hka
    simp [eq_comm]
  · have hne : (a, w) ≠ (k, v) := fun h => hka (congrArg Prod.fst h).symm
    simp [hka, hne]

theorem toList_perm_erase (m : Map K V) {k : K} {v : V} (h : m[k]? = some v) :
    m.toList.Perm ((k, v) :: (m.erase k).toList) := by
  have hsame : m.insert k v = m := by
    refine ext fun a => ?_
    rw [getElem?_insert]
    split
    · next hka => rw [← hka, h]
    · rfl
  have hperm := toList_insert_perm m k v
  rwa [hsame] at hperm

theorem erase_eq_self (m : Map K V) {k : K} (h : m[k]? = none) : m.erase k = m := by
  refine ext fun a => ?_
  rw [getElem?_erase]
  split
  · next hka => rw [← hka, h]
  · rfl

variable {G : Type} [AddCommGroup G]

/-- The new binding comes in place of the old one. -/
theorem sum_insert (m : Map K V) (k : K) (v : V) (f : K × V → G) :
    ((m.insert k v).toList.map f).sum =
      (m.toList.map f).sum - (m[k]?.elim 0 fun old => f (k, old)) + f (k, v) := by
  rw [((toList_insert_perm m k v).map f).sum_eq, List.map_cons, List.sum_cons]
  cases h : m[k]? with
  | none =>
    rw [erase_eq_self m h, Option.elim_none, sub_zero, add_comm]
  | some old =>
    rw [((toList_perm_erase m h).map f).sum_eq, List.map_cons, List.sum_cons, Option.elim_some,
      add_sub_cancel_left, add_comm]

/-- Only one binding counts. -/
theorem sum_single (m : Map K V) (a : K) (f : V → G) :
    (m.toList.map fun item => if item.1 = a then f item.2 else 0).sum = m[a]?.elim 0 f := by
  have hzero : ∀ l : List (K × V), (∀ item ∈ l, item.1 ≠ a) →
      (l.map fun item => if item.1 = a then f item.2 else 0).sum = 0 := by
    intro l hl
    refine List.sum_eq_zero fun n hn => ?_
    obtain ⟨item, hitem, rfl⟩ := List.mem_map.mp hn
    exact if_neg (hl item hitem)
  cases h : m[a]? with
  | none =>
    refine hzero _ fun item hitem hsame => ?_
    have hfound := (mem_toList m item.1 item.2).mp hitem
    rw [hsame, h] at hfound
    cases hfound
  | some v =>
    rw [((toList_perm_erase m h).map _).sum_eq, List.map_cons, List.sum_cons, if_pos rfl,
      Option.elim_some, hzero _ fun item hitem hsame => ?_, add_zero]
    have hfound := (mem_toList _ item.1 item.2).mp hitem
    rw [getElem?_erase, if_pos hsame.symm] at hfound
    cases hfound

end Map

/-- Only the element at one place counts. -/
theorem List.sum_zipIdx_single {α G : Type} [AddCommGroup G] (l : List α) (k : Nat) (f : α → G) :
    (l.zipIdx.map fun item => if item.2 = k then f item.1 else 0).sum = l[k]?.elim 0 f := by
  suffices hgen : ∀ n k, ((l.zipIdx n).map fun item =>
      if item.2 = n + k then f item.1 else 0).sum = l[k]?.elim 0 f by
    simpa using hgen 0 k
  induction l with
  | nil => exact fun n k => rfl
  | cons a l ih =>
    intro n k
    rw [List.zipIdx_cons, List.map_cons, List.sum_cons]
    cases k with
    | zero =>
      have hrest : ((l.zipIdx (n + 1)).map fun item =>
          if item.2 = n + 0 then f item.1 else 0).sum = 0 := by
        refine List.sum_eq_zero fun m hm => ?_
        obtain ⟨item, hitem, rfl⟩ := List.mem_map.mp hm
        have hle := List.le_snd_of_mem_zipIdx hitem
        exact if_neg (by omega)
      rw [hrest, if_pos (Nat.add_zero n).symm, add_zero]
      rfl
    | succ k =>
      have hfirst : ¬ n = n + (k + 1) := by omega
      rw [if_neg hfirst, zero_add, List.getElem?_cons_succ, ← ih (n + 1) k, Nat.add_right_comm,
        Nat.add_assoc]

/-- What is left out counts zero. -/
theorem List.sum_map_filter_eq {α G : Type} [AddCommGroup G] (p : α → Bool) (f : α → G)
    (l : List α) : ((l.filter p).map f).sum = (l.map fun a => if p a then f a else 0).sum := by
  induction l with
  | nil => rfl
  | cons a l ih =>
    rw [List.filter_cons, List.map_cons, List.sum_cons, ← ih]
    split
    · rw [List.map_cons, List.sum_cons]
    · rw [zero_add]

/-- The amounts by key. -/
abbrev Tally (K G : Type) [Ord K] := Map K G

namespace Tally

variable {K G : Type} [Ord K] [Std.TransOrd K] [Std.LawfulEqOrd K] [DecidableEq K] [AddCommGroup G]

/-- The amount of a key. -/
def get (t : Tally K G) (k : K) : G := t[k]?.getD 0

/-- `t[k] += n`. -/
def add (t : Tally K G) (k : K) (n : G) : Tally K G := t.insert k (get t k + n)

/-- The sum over all keys. -/
def total (t : Tally K G) : G := (t.toList.map (·.2)).sum

/-- `t[key i] += amount i` for all items. -/
def addAll {ι : Type} (key : ι → K) (amount : ι → G) (t : Tally K G) (items : List ι) :
    Tally K G :=
  items.foldl (fun t i => add t (key i) (amount i)) t

omit [Std.LawfulEqOrd K] [DecidableEq K] in
@[simp] theorem get_empty (k : K) : get (∅ : Tally K G) k = 0 := by
  rw [get, Map.getElem?_empty, Option.getD_none]

omit [Std.LawfulEqOrd K] [DecidableEq K] in
@[simp] theorem total_empty : total (∅ : Tally K G) = 0 := by
  rw [total, Std.ExtTreeMap.toList_eq_nil_iff.mpr rfl]
  rfl

theorem get_add (t : Tally K G) (k a : K) (n : G) :
    get (add t k n) a = get t a + if k = a then n else 0 := by
  unfold add
  rw [get, Map.getElem?_insert]
  split
  · next hka => rw [Option.getD_some, hka]
  · rw [add_zero, get]

theorem total_add (t : Tally K G) (k : K) (n : G) : total (add t k n) = total t + n := by
  unfold total add
  rw [Map.sum_insert]
  have hold : (t[k]?.elim 0 fun old => old) = get t k := by
    unfold get
    cases t[k]? <;> rfl
  rw [hold, ← add_assoc, sub_add_cancel]

theorem get_addAll {ι : Type} (key : ι → K) (amount : ι → G) (t : Tally K G) (items : List ι)
    (a : K) : get (addAll key amount t items) a =
      get t a + ((items.filter fun i => decide (key i = a)).map amount).sum := by
  induction items generalizing t with
  | nil => simp [addAll]
  | cons i items ih =>
    have hstep : addAll key amount t (i :: items) =
        addAll key amount (add t (key i) (amount i)) items := rfl
    rw [hstep, ih, get_add]
    by_cases hka : key i = a
    · simp [hka, add_assoc]
    · simp [hka]

/-- All items are for one key. -/
theorem get_addAll_const {ι : Type} (k : K) (amount : ι → G) (t : Tally K G) (items : List ι)
    (a : K) : get (addAll (fun _ => k) amount t items) a =
      get t a + if k = a then (items.map amount).sum else 0 := by
  rw [get_addAll]
  by_cases hka : k = a
  · simp [hka]
  · simp [hka]

theorem total_addAll {ι : Type} (key : ι → K) (amount : ι → G) (t : Tally K G) (items : List ι) :
    total (addAll key amount t items) = total t + (items.map amount).sum := by
  induction items generalizing t with
  | nil => simp [addAll]
  | cons i items ih =>
    have hstep : addAll key amount t (i :: items) =
        addAll key amount (add t (key i) (amount i)) items := rfl
    rw [hstep, ih, total_add, List.map_cons, List.sum_cons, add_assoc]

end Tally
