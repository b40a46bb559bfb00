import Mathlib.Data.List.Nodup
import Mathlib.Logic.Function.Iterate

/-!
# Trees of hashes over a list

A level of the tree pairs the nodes of the level below; an odd node is paired with itself.  That
makes the root of a list also the root of other lists, but never of another list without
duplicates, as long as the pairing function is injective on the nodes and no leaf is a pair.

Results:

1. `pairLevel_nodup`: no duplicates below, none above.
2. `pairLevel_injective`: a level without duplicates is determined by the one above.
3. `eq_of_iterate_pairLevel_eq`: a list without duplicates is determined by its root.
-/

variable {α : Type}

/-- The level above a level. -/
def pairLevel (pair : α → α → α) : List α → List α
  | [] => []
  | [a] => [pair a a]
  | a :: b :: rest => pair a b :: pairLevel pair rest

/-- Different pairs of nodes have different values. -/
def PairInjective (pair : α → α → α) (Node : α → Prop) : Prop :=
  ∀ a b c d, Node a → Node b → Node c → Node d → pair a b = pair c d → a = c ∧ b = d

section levels

variable {pair : α → α → α} {Node : α → Prop} {xs ys : List α}

/-- What stands in a level is a pair of nodes of the level below. -/
theorem exists_of_mem_pairLevel {x : α} (h : x ∈ pairLevel pair xs) :
    ∃ a b, a ∈ xs ∧ b ∈ xs ∧ x = pair a b := by
  induction xs using pairLevel.induct with
  | case1 => exact absurd h List.not_mem_nil
  | case2 a =>
    have ha : a ∈ [a] := List.mem_cons_self
    exact ⟨a, a, ha, ha, List.mem_singleton.mp h⟩
  | case3 a b rest ih =>
    rcases List.mem_cons.mp h with rfl | h
    · exact ⟨a, b, List.mem_cons_self, List.mem_cons_of_mem _ List.mem_cons_self, rfl⟩
    · obtain ⟨c, d, hc, hd, rfl⟩ := ih h
      exact ⟨c, d, List.mem_cons_of_mem _ (List.mem_cons_of_mem _ hc),
        List.mem_cons_of_mem _ (List.mem_cons_of_mem _ hd), rfl⟩

theorem length_pairLevel (pair : α → α → α) (xs : List α) :
    (pairLevel pair xs).length = (xs.length + 1) / 2 := by
  induction xs using pairLevel.induct with
  | case1 => simp only [pairLevel, List.length_nil, Nat.zero_add, Nat.reduceDiv]
  | case2 a => simp only [pairLevel, List.length_cons, List.length_nil]
  | case3 a b rest ih =>
    simp only [pairLevel, List.length_cons, ih]
    omega

theorem pairLevel_nodup (hinj : PairInjective pair Node) (hnode : ∀ x ∈ xs, Node x)
    (h : xs.Nodup) : (pairLevel pair xs).Nodup := by
  induction xs using pairLevel.induct with
  | case1 => exact List.nodup_nil
  | case2 a => exact List.nodup_singleton _
  | case3 a b rest ih =>
    have hrest : ∀ x ∈ rest, Node x := fun x hx =>
      hnode x (List.mem_cons_of_mem _ (List.mem_cons_of_mem _ hx))
    refine List.nodup_cons.mpr ⟨fun hmem => ?_, ih hrest h.of_cons.of_cons⟩
    -- the first node of the pair would stand a second time in the level below
    obtain ⟨c, d, hc, hd, heq⟩ := exists_of_mem_pairLevel hmem
    have hac := (hinj a b c d (hnode a List.mem_cons_self)
      (hnode b (List.mem_cons_of_mem _ List.mem_cons_self)) (hrest c hc) (hrest d hd) heq).1
    exact (List.nodup_cons.mp h).1 (hac ▸ List.mem_cons_of_mem _ hc)

/-- An odd level and the same level with its last node repeated look the same from above. -/
theorem pairLevel_injective (hinj : PairInjective pair Node) (hx : ∀ x ∈ xs, Node x)
    (hy : ∀ y ∈ ys, Node y) (hxs : xs.Nodup) (hys : ys.Nodup)
    (h : pairLevel pair xs = pairLevel pair ys) : xs = ys := by
  induction xs using pairLevel.induct generalizing ys with
  | case1 =>
    rcases ys with _ | ⟨c, _ | ⟨d, ys⟩⟩
    · rfl
    · exact absurd h.symm (List.cons_ne_nil _ _)
    · exact absurd h.symm (List.cons_ne_nil _ _)
  | case2 a =>
    have ha := hx a List.mem_cons_self
    rcases ys with _ | ⟨c, _ | ⟨d, ys⟩⟩
    · exact absurd h (List.cons_ne_nil _ _)
    · have hc := hy c List.mem_cons_self
      rw [(hinj a a c c ha ha hc hc (List.cons.inj h).1).1]
    · obtain ⟨hac, had⟩ := hinj a a c d ha ha (hy c List.mem_cons_self)
        (hy d (List.mem_cons_of_mem _ List.mem_cons_self)) (List.cons.inj h).1
      exact absurd (hac.symm.trans had ▸ List.mem_cons_self) (List.nodup_cons.mp hys).1
  | case3 a b xs ih =>
    have ha := hx a List.mem_cons_self
    have hb := hx b (List.mem_cons_of_mem _ List.mem_cons_self)
    rcases ys with _ | ⟨c, _ | ⟨d, ys⟩⟩
    · exact absurd h (List.cons_ne_nil _ _)
    · have hc := hy c List.mem_cons_self
      obtain ⟨hac, hbc⟩ := hinj a b c c ha hb hc hc (List.cons.inj h).1
      exact absurd (hac.trans hbc.symm ▸ List.mem_cons_self) (List.nodup_cons.mp hxs).1
    · obtain ⟨hpair, hrest⟩ := List.cons.inj h
      obtain ⟨rfl, rfl⟩ := hinj a b c d ha hb (hy c List.mem_cons_self)
        (hy d (List.mem_cons_of_mem _ List.mem_cons_self)) hpair
      rw [ih (fun x hmem => hx x (List.mem_cons_of_mem _ (List.mem_cons_of_mem _ hmem)))
        (fun y hmem => hy y (List.mem_cons_of_mem _ (List.mem_cons_of_mem _ hmem)))
        hxs.of_cons.of_cons hys.of_cons.of_cons hrest]

/-- The lowest `k` levels over a list consist of nodes. -/
def LevelsIn (pair : α → α → α) (Node : α → Prop) (k : Nat) (xs : List α) : Prop :=
  ∀ i < k, ∀ x ∈ (pairLevel pair)^[i] xs, Node x

theorem LevelsIn.above {j k : Nat} (h : LevelsIn pair Node (k + j) xs) :
    LevelsIn pair Node k ((pairLevel pair)^[j] xs) := by
  intro i hi x hx
  rw [← Function.iterate_add_apply] at hx
  exact h (i + j) (by omega) x hx

theorem iterate_pairLevel_nodup (hinj : PairInjective pair Node) {k : Nat}
    (hnode : LevelsIn pair Node k xs) (h : xs.Nodup) : ((pairLevel pair)^[k] xs).Nodup := by
  induction k with
  | zero => exact h
  | succ k ih =>
    rw [Function.iterate_succ_apply']
    exact pairLevel_nodup hinj (hnode k (Nat.lt_succ_self k))
      (ih fun i hi => hnode i (Nat.lt_succ_of_lt hi))

theorem iterate_pairLevel_injective (hinj : PairInjective pair Node) {k : Nat}
    (hx : LevelsIn pair Node k xs) (hy : LevelsIn pair Node k ys) (hxs : xs.Nodup)
    (hys : ys.Nodup) (h : (pairLevel pair)^[k] xs = (pairLevel pair)^[k] ys) : xs = ys := by
  induction k with
  | zero => exact h
  | succ k ih =>
    have hx' : LevelsIn pair Node k xs := fun i hi => hx i (Nat.lt_succ_of_lt hi)
    have hy' : LevelsIn pair Node k ys := fun i hi => hy i (Nat.lt_succ_of_lt hi)
    rw [Function.iterate_succ_apply', Function.iterate_succ_apply'] at h
    exact ih hx' hy' (pairLevel_injective hinj (hx k (Nat.lt_succ_self k))
      (hy k (Nat.lt_succ_self k)) (iterate_pairLevel_nodup hinj hx' hxs)
      (iterate_pairLevel_nodup hinj hy' hys) h)

/-- The list of the lower tree is a level of the higher one, and no level of pairs. -/
theorem eq_of_lower_root {i j : Nat} {root : α} (hinj : PairInjective pair Node)
    (hx : LevelsIn pair Node i xs) (hy : LevelsIn pair Node (i + j) ys) (hxs : xs.Nodup)
    (hys : ys.Nodup) (hleaf : ∀ x ∈ xs, ∀ a b, Node a → Node b → x ≠ pair a b)
    (hi : (pairLevel pair)^[i] xs = [root]) (hij : (pairLevel pair)^[i + j] ys = [root]) :
    xs = ys := by
  rw [Function.iterate_add_apply] at hij
  have hnodup : ((pairLevel pair)^[j] ys).Nodup :=
    iterate_pairLevel_nodup hinj (fun m hm => hy m (by omega)) hys
  have heq := iterate_pairLevel_injective hinj hx hy.above hxs hnodup (hi.trans hij.symm)
  cases j with
  | zero => exact heq
  | succ j =>
    rw [Function.iterate_succ_apply'] at heq
    cases xs with
    | nil =>
      rw [Function.iterate_fixed (show pairLevel pair [] = [] from rfl) i] at hi
      exact absurd hi.symm (List.cons_ne_nil _ _)
    | cons x xs =>
      have hmem : x ∈ pairLevel pair ((pairLevel pair)^[j] ys) := heq ▸ List.mem_cons_self
      obtain ⟨a, b, ha, hb, hab⟩ := exists_of_mem_pairLevel hmem
      exact absurd hab (hleaf x List.mem_cons_self a b (hy j (by omega) a ha)
        (hy j (by omega) b hb))

/-- A list without duplicates is determined by its root, whatever the height of its tree. -/
theorem eq_of_iterate_pairLevel_eq {k l : Nat} {root : α} (hinj : PairInjective pair Node)
    (hx : LevelsIn pair Node k xs) (hy : LevelsIn pair Node l ys) (hxs : xs.Nodup)
    (hys : ys.Nodup) (hleaf : ∀ x, x ∈ xs ∨ x ∈ ys → ∀ a b, Node a → Node b → x ≠ pair a b)
    (hk : (pairLevel pair)^[k] xs = [root]) (hl : (pairLevel pair)^[l] ys = [root]) : xs = ys := by
  rcases Nat.le_total k l with hle | hle
  · obtain ⟨j, rfl⟩ := Nat.exists_eq_add_of_le hle
    exact eq_of_lower_root hinj hx hy hxs hys (fun x hmem => hleaf x (.inl hmem)) hk hl
  · obtain ⟨j, rfl⟩ := Nat.exists_eq_add_of_le hle
    exact (eq_of_lower_root hinj hy hx hys hxs (fun y hmem => hleaf y (.inr hmem)) hl hk).symm

end levels
