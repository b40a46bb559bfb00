import Mathlib

/-!
# Breadth-first search

A work list is walked from front to back.  A vertex that is met for the first time is visited, and
what it leads to is put at the end of the list.  The visit may keep a state of its own.

Results:

1. `worklist_terminates`: the walk ends, when only finitely many vertices lead anywhere.
2. `Search.pairwise_before`, `Search.mem_iff`: the vertices are visited in the order of their first
   routes, and all that can be reached are.
3. `Search.mem_of_before`: the same in the middle of a walk.
4. `worklist_search`: a walk follows the search as long as each visit does what is expected of it.
-/

namespace BreadthFirst

variable {V σ : Type}

/-! ## Routes -/

/-- The place of a route among the others: a shorter one comes first, and of two of one length the
one that branches off first. -/
def place (p : List ℕ) : ℕ ×ₗ List ℕ := toLex (p.length, p)

theorem place_lt_iff {p q : List ℕ} :
    place p < place q ↔ p.length < q.length ∨ p.length = q.length ∧ p < q :=
  Prod.Lex.toLex_lt_toLex

theorem place_lt_of_length {p q : List ℕ} (h : p.length < q.length) : place p < place q :=
  place_lt_iff.mpr (.inl h)

theorem lex_append_singleton {p q : List ℕ} (hlen : p.length = q.length) (h : p < q) (i j : ℕ) :
    p ++ [i] < q ++ [j] := by
  induction p generalizing q with
  | nil =>
    obtain rfl := List.eq_nil_of_length_eq_zero hlen.symm
    exact absurd h (lt_irrefl _)
  | cons a p ih =>
    obtain ⟨b, q, rfl⟩ := List.exists_cons_of_length_eq_add_one hlen.symm
    rw [List.cons_append, List.cons_append, List.cons_lt_cons_iff]
    rcases List.cons_lt_cons_iff.mp h with hab | ⟨rfl, hpq⟩
    · exact .inl hab
    · exact .inr ⟨rfl, ih (Nat.succ.inj hlen) hpq⟩

/-- Going on keeps the order of two routes. -/
theorem place_append_lt {p q : List ℕ} (h : place p < place q) (i j : ℕ) :
    place (p ++ [i]) < place (q ++ [j]) := by
  rw [place_lt_iff, List.length_append, List.length_append, List.length_singleton,
    List.length_singleton]
  rcases place_lt_iff.mp h with hlen | ⟨hlen, hlt⟩
  · exact .inl (Nat.add_lt_add_right hlen 1)
  · exact .inr ⟨congrArg (· + 1) hlen, lex_append_singleton hlen hlt i j⟩

theorem place_append_lt_append (p : List ℕ) {i j : ℕ} (h : i < j) :
    place (p ++ [i]) < place (p ++ [j]) := by
  refine place_lt_iff.mpr (.inr ⟨by simp, List.append_left_lt ?_⟩)
  exact List.cons_lt_cons_iff.mpr (.inl h)

theorem place_append_le {p q : List ℕ} (h : place p ≤ place q) (j : ℕ) :
    place (p ++ [j]) ≤ place (q ++ [j]) := by
  rcases h.lt_or_eq with hlt | heq
  · exact (place_append_lt hlt j j).le
  · obtain rfl : p = q := (Prod.ext_iff.mp (toLex.injective heq)).2
    exact le_rfl

theorem place_lt_append (p : List ℕ) (j : ℕ) : place p < place (p ++ [j]) :=
  place_lt_of_length (by simp)

/-- The route from a root to a vertex, by the position of the root and of each vertex among those
that the one before leads to. -/
inductive Route (roots : List V) (succ : V → List V) : List ℕ → V → Prop
  | root {i : ℕ} {v : V} (h : roots[i]? = some v) : Route roots succ [i] v
  | step {p : List ℕ} {v w : V} {j : ℕ} (hp : Route roots succ p v)
      (h : (succ v)[j]? = some w) : Route roots succ (p ++ [j]) w

/-- A vertex that can be reached from the roots. -/
def Reachable (roots : List V) (succ : V → List V) (v : V) : Prop := ∃ p, Route roots succ p v

/-- There is a route to `a` before every route to `b`. -/
def Before (roots : List V) (succ : V → List V) (a b : V) : Prop :=
  ∃ p, Route roots succ p a ∧ ∀ q, Route roots succ q b → place p < place q

variable {roots : List V} {succ : V → List V} {a b u v : V}

theorem Route.ne_nil {p : List ℕ} (h : Route roots succ p v) : 1 ≤ p.length := by
  cases h with
  | root _ => exact le_rfl
  | step _ _ => simp

theorem Before.irrefl : ¬ Before roots succ a a :=
  fun ⟨p, hp, hlt⟩ => lt_irrefl _ (hlt p hp)

theorem Before.asymm (hab : Before roots succ a b) : ¬ Before roots succ b a := by
  rintro ⟨q, hq, hba⟩
  obtain ⟨p, hp, hab⟩ := hab
  exact lt_asymm (hab q hq) (hba p hp)

/-! ## The state of a search -/

/-- The vertices that are done and those that wait, each with the route it was met by. -/
structure Frontier (roots : List V) (succ : V → List V) (done queue : List (List ℕ × V)) :
    Prop where
  route : ∀ e ∈ done ++ queue, Route roots succ e.1 e.2
  sorted : (done ++ queue).Pairwise fun e f => place e.1 < place f.1
  origin : ∀ e ∈ queue, (∃ i, e.1 = [i]) ∨ ∃ f ∈ done, ∃ j, e.1 = f.1 ++ [j]
  start : ∀ i v, roots[i]? = some v → ∃ e ∈ done ++ queue, e.2 = v ∧ place e.1 ≤ place [i]
  closed : ∀ e ∈ done, ∀ j w, (succ e.2)[j]? = some w →
    ∃ f ∈ done ++ queue, f.2 = w ∧ place f.1 ≤ place (e.1 ++ [j])
  nodup : (done.map Prod.snd).Nodup

/-- What a vertex met by the route `p` puts into the work list. -/
def pushed (p : List ℕ) (vs : List V) : List (List ℕ × V) :=
  vs.zipIdx.map fun r => (p ++ [r.2], r.1)

theorem mem_pushed {p : List ℕ} {vs : List V} {e : List ℕ × V} :
    e ∈ pushed p vs ↔ ∃ j, vs[j]? = some e.2 ∧ e.1 = p ++ [j] := by
  rw [pushed, List.mem_map]
  constructor
  · rintro ⟨⟨w, j⟩, hmem, rfl⟩
    exact ⟨j, List.mem_zipIdx_iff_getElem?.mp hmem, rfl⟩
  · rintro ⟨j, hj, he⟩
    exact ⟨(e.2, j), List.mem_zipIdx_iff_getElem?.mpr hj, Prod.ext he.symm rfl⟩

theorem map_snd_pushed (p : List ℕ) (vs : List V) : (pushed p vs).map Prod.snd = vs := by
  rw [pushed, List.map_map]
  exact List.zipIdx_map_fst 0 vs

theorem pairwise_pushed (p : List ℕ) (vs : List V) :
    (pushed p vs).Pairwise fun e f => place e.1 < place f.1 := by
  refine List.pairwise_map.mpr (List.Pairwise.imp (fun h => place_append_lt_append p h)
    (List.pairwise_map.mp ?_))
  rw [List.zipIdx_map_snd]
  exact List.pairwise_lt_range'

namespace Frontier

variable {done queue : List (List ℕ × V)} {p r : List ℕ}

theorem init : Frontier roots succ [] (pushed [] roots) where
  route := by
    intro e he
    obtain ⟨i, hi, hp⟩ := mem_pushed.mp he
    exact hp ▸ .root hi
  sorted := pairwise_pushed [] roots
  origin := by
    intro e he
    obtain ⟨i, -, hp⟩ := mem_pushed.mp he
    exact .inl ⟨i, hp⟩
  start := fun i v hv => ⟨([i], v), mem_pushed.mpr ⟨i, hv, rfl⟩, rfl, le_rfl⟩
  closed := fun e he => absurd he List.not_mem_nil
  nodup := List.nodup_nil

/-- A vertex that is done is met again by a later route, which adds nothing. -/
theorem skip (h : Frontier roots succ done ((p, v) :: queue)) (hv : v ∈ done.map Prod.snd) :
    Frontier roots succ done queue := by
  obtain ⟨⟨q, u⟩, hq, rfl⟩ := List.mem_map.mp hv
  have hle : place q ≤ place p :=
    ((List.pairwise_append.mp h.sorted).2.2 _ hq _ List.mem_cons_self).le
  have hcover : ∀ w (r : List ℕ), (∃ f ∈ done ++ (p, u) :: queue, f.2 = w ∧ place f.1 ≤ place r) →
      ∃ f ∈ done ++ queue, f.2 = w ∧ place f.1 ≤ place r := by
    rintro w r ⟨f, hf, hw, hr⟩
    rcases List.mem_append.mp hf with hf | hf
    · exact ⟨f, List.mem_append_left _ hf, hw, hr⟩
    rcases List.mem_cons.mp hf with rfl | hf
    · exact ⟨(q, u), List.mem_append_left _ hq, hw, hle.trans hr⟩
    · exact ⟨f, List.mem_append_right _ hf, hw, hr⟩
  have hsub : (done ++ queue).Sublist (done ++ (p, u) :: queue) :=
    (List.sublist_cons_self _ _).append_left _
  exact {
    route := fun e he => h.route e (hsub.subset he)
    sorted := h.sorted.sublist hsub
    origin := fun e he => h.origin e (List.mem_cons_of_mem _ he)
    start := fun i w hw => hcover w [i] (h.start i w hw)
    closed := fun e he j w hw => hcover w _ (h.closed e he j w hw)
    nodup := h.nodup }

/-- A vertex that is new is done, and what it leads to waits behind all others. -/
theorem push (h : Frontier roots succ done ((p, v) :: queue)) (hv : v ∉ done.map Prod.snd) :
    Frontier roots succ (done ++ [(p, v)]) (queue ++ pushed p (succ v)) := by
  have hassoc : done ++ [(p, v)] ++ (queue ++ pushed p (succ v)) =
      (done ++ (p, v) :: queue) ++ pushed p (succ v) := by simp
  have hdone : ∀ e ∈ done, place e.1 < place p := fun e he =>
    (List.pairwise_append.mp h.sorted).2.2 e he _ List.mem_cons_self
  have hlong : 1 ≤ p.length :=
    (h.route (p, v) (List.mem_append_right _ List.mem_cons_self)).ne_nil
  have hlast : ∀ e ∈ done ++ (p, v) :: queue, ∀ j, place e.1 < place (p ++ [j]) := by
    intro e he j
    rcases List.mem_append.mp he with he | he
    · exact (hdone e he).trans (place_lt_append p j)
    rcases h.origin e he with ⟨i, hi⟩ | ⟨f, hf, i, hi⟩
    · rw [hi]
      exact place_lt_of_length (by simpa using Nat.lt_of_lt_of_le Nat.zero_lt_one hlong)
    · rw [hi]
      exact place_append_lt (hdone f hf) i j
  refine { route := ?_, sorted := ?_, origin := ?_, start := ?_, closed := ?_, nodup := ?_ }
  · rw [hassoc]
    intro e he
    rcases List.mem_append.mp he with he | he
    · exact h.route e he
    · obtain ⟨j, hj, hp⟩ := mem_pushed.mp he
      exact hp ▸ .step (h.route (p, v) (List.mem_append_right _ List.mem_cons_self)) hj
  · rw [hassoc]
    refine List.pairwise_append.mpr ⟨h.sorted, pairwise_pushed p _, fun e he f hf => ?_⟩
    obtain ⟨j, -, hp⟩ := mem_pushed.mp hf
    exact hp ▸ hlast e he j
  · intro e he
    rcases List.mem_append.mp he with he | he
    · exact (h.origin e (List.mem_cons_of_mem _ he)).imp_right fun ⟨f, hf, hj⟩ =>
        ⟨f, List.mem_append_left _ hf, hj⟩
    · obtain ⟨j, -, hp⟩ := mem_pushed.mp he
      exact .inr ⟨(p, v), by simp, j, hp⟩
  · intro i w hw
    rw [hassoc]
    obtain ⟨e, he, hsame⟩ := h.start i w hw
    exact ⟨e, List.mem_append_left _ he, hsame⟩
  · intro e he j w hw
    rw [hassoc]
    rcases List.mem_append.mp he with he | he
    · obtain ⟨f, hf, hsame⟩ := h.closed e he j w hw
      exact ⟨f, List.mem_append_left _ hf, hsame⟩
    · obtain rfl := List.mem_singleton.mp he
      exact ⟨(p ++ [j], w), List.mem_append_right _ (mem_pushed.mpr ⟨j, hw, rfl⟩), rfl, le_rfl⟩
  · rw [List.map_append]
    exact List.nodup_append.mpr ⟨h.nodup, List.nodup_singleton _, by
      rintro x hx y hy rfl
      obtain rfl := List.mem_singleton.mp hy
      exact hv hx⟩

/-- The end of a route is done, or something waits that comes before. -/
theorem ahead (h : Frontier roots succ done queue) (hr : Route roots succ r u) :
    (∃ e ∈ done, e.2 = u ∧ place e.1 ≤ place r) ∨ ∃ e ∈ queue, place e.1 ≤ place r := by
  induction hr with
  | @root i u hu =>
    obtain ⟨e, he, hsame, hle⟩ := h.start i u hu
    rcases List.mem_append.mp he with he | he
    · exact .inl ⟨e, he, hsame, hle⟩
    · exact .inr ⟨e, he, hle⟩
  | @step r u w j _ hw ih =>
    rcases ih with ⟨e, he, rfl, hle⟩ | ⟨e, he, hle⟩
    · obtain ⟨f, hf, hsame, hlef⟩ := h.closed e he j w hw
      have hle := hlef.trans (place_append_le hle j)
      rcases List.mem_append.mp hf with hf | hf
      · exact .inl ⟨f, hf, hsame, hle⟩
      · exact .inr ⟨f, hf, hle⟩
    · exact .inr ⟨e, he, hle.trans (place_lt_append r j).le⟩

/-- A vertex is done by the first of its routes. -/
theorem first (h : Frontier roots succ done queue) {e : List ℕ × V} (he : e ∈ done)
    (hr : Route roots succ r e.2) : place e.1 ≤ place r := by
  rcases h.ahead hr with ⟨f, hf, hsame, hle⟩ | ⟨f, hf, hle⟩
  · obtain rfl := List.inj_on_of_nodup_map h.nodup hf he hsame
    exact hle
  · exact ((List.pairwise_append.mp h.sorted).2.2 e he f hf).le.trans hle

end Frontier

/-! ## Searching -/

/-- The vertices that are done and those that wait, in a search from the roots. -/
def Search (roots : List V) (succ : V → List V) (done queue : List V) : Prop :=
  ∃ d q, Frontier roots succ d q ∧ d.map Prod.snd = done ∧ q.map Prod.snd = queue

namespace Search

variable {done queue : List V}

theorem init : Search roots succ [] roots := ⟨[], _, .init, rfl, map_snd_pushed [] roots⟩

theorem skip (h : Search roots succ done (v :: queue)) (hv : v ∈ done) :
    Search roots succ done queue := by
  obtain ⟨d, q, h, rfl, hq⟩ := h
  obtain ⟨⟨p, _⟩, q, rfl, rfl, rfl⟩ := List.map_eq_cons_iff.mp hq
  exact ⟨d, q, h.skip hv, rfl, rfl⟩

theorem push (h : Search roots succ done (v :: queue)) (hv : v ∉ done) :
    Search roots succ (done ++ [v]) (queue ++ succ v) := by
  obtain ⟨d, q, h, rfl, hq⟩ := h
  obtain ⟨⟨p, _⟩, q, rfl, rfl, rfl⟩ := List.map_eq_cons_iff.mp hq
  exact ⟨_, _, h.push hv, by simp, by rw [List.map_append, map_snd_pushed]⟩

theorem nodup (h : Search roots succ done queue) : done.Nodup := by
  obtain ⟨d, q, h, rfl, -⟩ := h
  exact h.nodup

/-- The vertices are done in the order of their first routes. -/
theorem pairwise_before (h : Search roots succ done queue) :
    done.Pairwise (Before roots succ) := by
  obtain ⟨d, q, h, rfl, -⟩ := h
  refine List.pairwise_map.mpr (List.Pairwise.imp_of_mem ?_ (List.pairwise_append.mp h.sorted).1)
  intro e f he hf hlt
  exact ⟨e.1, h.route e (List.mem_append_left _ he), fun r hr => hlt.trans_le (h.first hf hr)⟩

theorem reachable (h : Search roots succ done queue) (hv : v ∈ done) :
    Reachable roots succ v := by
  obtain ⟨d, q, h, rfl, -⟩ := h
  obtain ⟨e, he, rfl⟩ := List.mem_map.mp hv
  exact ⟨e.1, h.route e (List.mem_append_left _ he)⟩

theorem reachable_head (h : Search roots succ done (v :: queue)) : Reachable roots succ v := by
  obtain ⟨d, q, h, rfl, hq⟩ := h
  obtain ⟨⟨p, _⟩, q, rfl, rfl, rfl⟩ := List.map_eq_cons_iff.mp hq
  exact ⟨p, h.route _ (List.mem_append_right _ List.mem_cons_self)⟩

/-- What comes before the vertex whose turn it is, is done. -/
theorem mem_of_before (h : Search roots succ done (v :: queue)) (ha : Before roots succ a v) :
    a ∈ done := by
  obtain ⟨d, q, h, rfl, hq⟩ := h
  obtain ⟨⟨p, _⟩, q, rfl, rfl, rfl⟩ := List.map_eq_cons_iff.mp hq
  obtain ⟨r, hr, hlt⟩ := ha
  have hrp := hlt p (h.route _ (List.mem_append_right _ List.mem_cons_self))
  rcases h.ahead hr with ⟨e, he, rfl, -⟩ | ⟨e, he, hle⟩
  · exact List.mem_map_of_mem he
  · refine absurd (hle.trans_lt hrp) (not_lt.mpr ?_)
    rcases List.mem_cons.mp he with rfl | he
    · exact le_rfl
    · exact (List.rel_of_pairwise_cons (List.pairwise_append.mp h.sorted).2.1 he).le

/-- At the end everything that can be reached is done. -/
theorem mem_iff (h : Search roots succ done []) : v ∈ done ↔ Reachable roots succ v := by
  refine ⟨h.reachable, ?_⟩
  rintro ⟨r, hr⟩
  obtain ⟨d, q, h, rfl, hq⟩ := h
  obtain rfl := List.map_eq_nil_iff.mp hq
  rcases h.ahead hr with ⟨e, he, rfl, -⟩ | ⟨e, he, -⟩
  · exact List.mem_map_of_mem he
  · exact absurd he List.not_mem_nil

end Search

/-! ## The walk -/

section walk

variable [DecidableEq V]

/-- Walk the work list; `visit` gives the new state and what the vertex leads to.  The result is
the vertices in the order of their visits with the last state, or `none` without enough fuel. -/
def worklist (visit : V → σ → σ × List V) :
    (fuel : ℕ) → (done queue : List V) → σ → Option (List V × σ)
  | _, done, [], s => some (done, s)
  | 0, _, _ :: _, _ => none
  | fuel + 1, done, v :: queue, s =>
    if v ∈ done then worklist visit fuel done queue s
    else worklist visit fuel (done ++ [v]) (queue ++ (visit v s).2) (visit v s).1

variable {visit : V → σ → σ × List V} {fuel : ℕ} {done queue order : List V} {s s' : σ}

theorem worklist_nil : worklist visit fuel done [] s = some (done, s) := by
  cases fuel <;> rfl

/-- A walk ends, when a vertex leads to at most `weight` others and those outside of `known` to
none. -/
theorem worklist_terminates {Inv : σ → Prop} {known : Finset V} {weight : V → ℕ}
    (hinv : ∀ v s, Inv s → Inv (visit v s).1) (hvisit : ∀ v s, Inv s →
      (visit v s).2.length ≤ weight v) (hzero : ∀ v ∉ known, weight v = 0) (hs : Inv s)
    (hfuel : queue.length + ∑ v ∈ known \ done.toFinset, weight v ≤ fuel) :
    ∃ r, ∀ fuel' ≥ fuel, worklist visit fuel' done queue s = some r := by
  induction fuel generalizing done queue s with
  | zero =>
    obtain rfl : queue = [] := List.eq_nil_of_length_eq_zero (by omega)
    exact ⟨_, fun _ _ => worklist_nil⟩
  | succ fuel ih =>
    cases queue with
    | nil => exact ⟨_, fun _ _ => worklist_nil⟩
    | cons v queue =>
      rw [List.length_cons] at hfuel
      have hnext : ∃ r, ∀ fuel' ≥ fuel, (if v ∈ done then worklist visit fuel' done queue s
          else worklist visit fuel' (done ++ [v]) (queue ++ (visit v s).2) (visit v s).1) =
            some r := by
        by_cases hv : v ∈ done
        · simp only [if_pos hv]
          exact ih hs (by omega)
        · simp only [if_neg hv]
          refine ih (hinv v s hs) ?_
          have hset : known \ (done ++ [v]).toFinset = (known \ done.toFinset).erase v := by
            ext x
            simp [Finset.mem_sdiff, and_left_comm]
          have hsum : ∑ x ∈ (known \ done.toFinset).erase v, weight x + weight v =
              ∑ x ∈ known \ done.toFinset, weight x := by
            by_cases hmem : v ∈ known
            · exact Finset.sum_erase_add _ _ (by simp [hmem, hv])
            · rw [hzero v hmem, Finset.erase_eq_of_notMem (by simp [hmem]), add_zero]
          have hlen := hvisit v s hs
          rw [hset, List.length_append]
          omega
      obtain ⟨r, hr⟩ := hnext
      refine ⟨r, fun fuel' hge => ?_⟩
      obtain ⟨fuel', rfl⟩ := Nat.exists_eq_succ_of_ne_zero (n := fuel') (by omega)
      exact hr fuel' (Nat.succ_le_succ_iff.mp hge)

/-- What every visit of a new vertex keeps, a walk keeps. -/
theorem worklist_inv {Inv : List V → σ → Prop}
    (hstep : ∀ done v s, v ∉ done → Inv done s → Inv (done ++ [v]) (visit v s).1)
    (hs : Inv done s) (hrun : worklist visit fuel done queue s = some (order, s')) :
    Inv order s' := by
  fun_induction worklist visit fuel done queue s with
  | case1 =>
    obtain ⟨rfl, rfl⟩ := Prod.mk.inj (Option.some.inj hrun)
    exact hs
  | case2 => cases hrun
  | case3 _ _ _ _ _ _ ih => exact ih hs hrun
  | case4 _ done v _ s hv ih => exact ih (hstep done v s hv hs) hrun

/-- A walk whose visits are as expected is the search; else there is a first visit that is not. -/
theorem worklist_search {Inv : List V → σ → Prop} (h : Search roots succ done queue)
    (hs : Inv done s) (hrun : worklist visit fuel done queue s = some (order, s')) :
    (Search roots succ order [] ∧ Inv order s') ∨
      ∃ fuel₁ done₁ v queue₁ s₁, Search roots succ done₁ (v :: queue₁) ∧ Inv done₁ s₁ ∧
        v ∉ done₁ ∧ ¬ ((visit v s₁).2 = succ v ∧ Inv (done₁ ++ [v]) (visit v s₁).1) ∧
        worklist visit fuel₁ (done₁ ++ [v]) (queue₁ ++ (visit v s₁).2) (visit v s₁).1 =
          some (order, s') := by
  fun_induction worklist visit fuel done queue s with
  | case1 =>
    obtain ⟨rfl, rfl⟩ := Prod.mk.inj (Option.some.inj hrun)
    exact .inl ⟨h, hs⟩
  | case2 => cases hrun
  | case3 _ _ _ _ _ hv ih => exact ih (h.skip hv) hs hrun
  | case4 fuel done v queue s hv ih =>
    by_cases hvisit : (visit v s).2 = succ v ∧ Inv (done ++ [v]) (visit v s).1
    · exact ih (hvisit.1 ▸ h.push hv) hvisit.2 hrun
    · exact .inr ⟨fuel, done, v, queue, s, h, hs, hv, hvisit, hrun⟩

end walk

end BreadthFirst
