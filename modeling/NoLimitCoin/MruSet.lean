import Mathlib.Data.Finset.Card
import Mathlib.Data.List.DropRight

/-!
# The set of the most recent elements

`mruset` of `mruset.h` is a set that forgets its oldest elements.  It keeps them in the order of
their insertion in a queue beside the set; its limit can be changed, and zero is no limit.

Results:
1. `insert_spec`, `setMaxSize_spec`: what the two containers become.
2. `mruset_keeps_recent`: what they are after any calls.
-/

namespace NoLimitCoin

/-! ## The code -/

/-- `mruset`; the front of the queue comes first. -/
structure MruSet (T : Type) where
  set : Finset T
  queue : List T
  nMaxSize : Nat

namespace MruSet

variable {T : Type}

section code

variable [DecidableEq T]

/-- `mruset(nMaxSizeIn)`. -/
def new (nMaxSizeIn : Nat) : MruSet T := ⟨∅, [], nMaxSizeIn⟩

def clear (s : MruSet T) : MruSet T := { s with set := ∅, queue := [] }

/-- `set.erase(queue.front())` and `queue.pop_front()`. -/
def popFront (s : MruSet T) : MruSet T :=
  match s.queue with
  | [] => s
  | front :: queue => { s with set := s.set.erase front, queue := queue }

/-- `insert`, and whether the element was not there. -/
def insert (s : MruSet T) (x : T) : MruSet T × Bool :=
  if x ∈ s.set then (s, false)
  else
    let s := { s with set := Insert.insert x s.set }
    let s := if s.nMaxSize ≠ 0 ∧ s.queue.length = s.nMaxSize then s.popFront else s
    ({ s with queue := s.queue ++ [x] }, true)

/-- The loop of `max_size`. -/
def shrink (n : Nat) (set : Finset T) : List T → Finset T × List T
  | [] => (set, [])
  | front :: queue =>
    if n < queue.length + 1 then shrink n (set.erase front) queue else (set, front :: queue)

/-- `max_size`. -/
def setMaxSize (s : MruSet T) (n : Nat) : MruSet T :=
  let kept := if n ≠ 0 then shrink n s.set s.queue else (s.set, s.queue)
  ⟨kept.1, kept.2, n⟩

/-- A call. -/
inductive Call (T : Type) where
  | insert (x : T)
  | clear
  | maxSize (n : Nat)
deriving Repr, DecidableEq

def Call.exec (s : MruSet T) : Call T → MruSet T
  | .insert x => (s.insert x).1
  | .clear => s.clear
  | .maxSize n => s.setMaxSize n

def run (nMaxSizeIn : Nat) (calls : List (Call T)) : MruSet T :=
  calls.foldl Call.exec (new nMaxSizeIn)

end code

/-! ## What it is for -/

/-- The last elements, as many as a limit allows. -/
def lastOf (limit : Nat) (l : List T) : List T := if limit = 0 then l else l.rtake limit

/-- The successful insertions since the last `clear`, the oldest first; `gone` counts those that
have been evicted. -/
structure History (T : Type) where
  inserted : List T
  gone : Nat
  limit : Nat

namespace History

def content (h : History T) : List T := h.inserted.drop h.gone

/-- By how many the insertions exceed the limit. -/
def excess (h : History T) : Nat := if h.limit = 0 then 0 else h.inserted.length - h.limit

/-- What is over the limit goes, and does not come back. -/
def settle (h : History T) : History T := { h with gone := max h.gone h.excess }

def step [DecidableEq T] (h : History T) : Call T → History T
  | .insert x => if x ∈ h.content then h else settle { h with inserted := h.inserted ++ [x] }
  | .clear => { h with inserted := [], gone := 0 }
  | .maxSize n => settle { h with limit := n }

def run [DecidableEq T] (nMaxSizeIn : Nat) (calls : List (Call T)) : History T :=
  calls.foldl step ⟨[], 0, nMaxSizeIn⟩

end History

/-! ### The last elements -/

section lists

variable {n : Nat} {queue : List T}

theorem length_lastOf_le (hn : n ≠ 0) (l : List T) : (lastOf n l).length ≤ n := by
  rw [lastOf, if_neg hn, List.rtake, List.length_drop]
  omega

theorem lastOf_of_le {l : List T} (h : n ≠ 0 → l.length ≤ n) : lastOf n l = l := by
  rw [lastOf]
  split
  · rfl
  · next hn => rw [List.rtake, Nat.sub_eq_zero_of_le (h hn), List.drop_zero]

theorem lastOf_cons {front : T} (hn : n ≠ 0) (hlt : n < queue.length + 1) :
    lastOf n (front :: queue) = lastOf n queue := by
  have hdrop : (front :: queue).length - n = (queue.length - n) + 1 := by
    rw [List.length_cons]
    omega
  rw [lastOf, lastOf, if_neg hn, if_neg hn, List.rtake, List.rtake, hdrop, List.drop_succ_cons]

end lists

namespace History

variable {h : History T}

theorem content_settle (h : History T) : h.settle.content = lastOf h.limit h.content := by
  rw [lastOf, content, content, settle, excess]
  split
  · rw [Nat.max_zero]
  · rw [List.rtake, List.drop_drop, List.length_drop]
    congr 1
    dsimp only
    omega

theorem content_append (hgone : h.gone ≤ h.inserted.length) (x : T) :
    ({ h with inserted := h.inserted ++ [x] } : History T).content = h.content ++ [x] :=
  List.drop_append_of_le_length hgone

theorem gone_settle (hgone : h.gone ≤ h.inserted.length) :
    h.settle.gone ≤ h.settle.inserted.length := by
  refine max_le hgone ?_
  unfold excess
  split
  · exact Nat.zero_le _
  · exact Nat.sub_le _ _

end History

/-! ## One call -/

section calls

variable [DecidableEq T] {s : MruSet T} {set : Finset T} {queue : List T} {n : Nat} {x : T}

/-- The set and the queue hold the same elements, each of them once. -/
structure Agree (set : Finset T) (queue : List T) : Prop where
  mem : ∀ x, x ∈ set ↔ x ∈ queue
  nodup : queue.Nodup

/-- The containers agree, and the limit is kept. -/
structure Ok (s : MruSet T) : Prop where
  agree : Agree s.set s.queue
  size : s.nMaxSize ≠ 0 → s.queue.length ≤ s.nMaxSize

theorem Agree.card (h : Agree set queue) : set.card = queue.length := by
  have hset : set = queue.toFinset := Finset.ext fun x => (h.mem x).trans List.mem_toFinset.symm
  rw [hset, List.toFinset_card_of_nodup h.nodup]

theorem Agree.pop {front : T} (h : Agree set (front :: queue)) :
    Agree (set.erase front) queue := by
  obtain ⟨hfront, hrest⟩ := List.nodup_cons.mp h.nodup
  refine ⟨fun x => ?_, hrest⟩
  rw [Finset.mem_erase, h.mem, List.mem_cons]
  constructor
  · exact fun hx => hx.2.resolve_left hx.1
  · exact fun hx => ⟨fun heq => hfront (heq ▸ hx), .inr hx⟩

theorem Agree.push (h : Agree set queue) (hx : x ∉ queue) :
    Agree (Insert.insert x set) (queue ++ [x]) := by
  refine ⟨fun y => ?_, ?_⟩
  · rw [Finset.mem_insert, h.mem, List.mem_append, List.mem_singleton, or_comm]
  · exact List.nodup_append.mpr ⟨h.nodup, List.nodup_singleton x, fun y hy z hz heq =>
      hx (List.mem_singleton.mp hz ▸ heq ▸ hy)⟩

theorem shrink_spec (hn : n ≠ 0) (h : Agree set queue) :
    (shrink n set queue).2 = lastOf n queue ∧
      Agree (shrink n set queue).1 (shrink n set queue).2 := by
  induction queue generalizing set with
  | nil => exact ⟨(lastOf_of_le fun _ => Nat.zero_le n).symm, h⟩
  | cons front queue ih =>
    rw [shrink]
    split
    · next hlt =>
      rw [lastOf_cons hn hlt]
      exact ih h.pop
    · next hle => exact ⟨(lastOf_of_le fun _ => Nat.not_lt.mp hle).symm, h⟩

/-- `max_size` keeps the last elements. -/
theorem setMaxSize_spec (h : s.Ok) (n : Nat) :
    (s.setMaxSize n).queue = lastOf n s.queue ∧ (s.setMaxSize n).Ok := by
  unfold setMaxSize
  split
  · next hn =>
    obtain ⟨hqueue, hagree⟩ := shrink_spec hn h.agree
    refine ⟨hqueue, hagree, fun _ => ?_⟩
    show (shrink n s.set s.queue).2.length ≤ n
    rw [hqueue]
    exact length_lastOf_le hn _
  · next hn =>
    rw [not_not] at hn
    exact ⟨(lastOf_of_le fun hne => absurd hn hne).symm, h.agree, fun hne => absurd hn hne⟩

theorem insert_of_mem (hx : x ∈ s.set) : s.insert x = (s, false) := if_pos hx

/-- `insert` of a new element evicts the oldest one when the limit is reached. -/
theorem insert_spec (h : s.Ok) (hx : x ∉ s.set) :
    (s.insert x).2 = true ∧ (s.insert x).1.queue = lastOf s.nMaxSize (s.queue ++ [x]) ∧
      (s.insert x).1.nMaxSize = s.nMaxSize ∧ (s.insert x).1.Ok := by
  obtain ⟨set, queue, nMaxSize⟩ := s
  have hnew : x ∉ queue := fun hmem => hx ((h.agree.mem x).mpr hmem)
  unfold insert
  rw [if_neg hx]
  dsimp only
  split
  · next hfull =>
    obtain ⟨hn, hlength⟩ := hfull
    cases queue with
    | nil => exact absurd hlength.symm hn
    | cons front queue =>
      -- the oldest element is not the new one
      have hne : front ≠ x := fun heq => hnew (heq ▸ List.mem_cons_self)
      have hset : (Insert.insert x set).erase front = Insert.insert x (set.erase front) :=
        Finset.erase_insert_of_ne hne.symm
      have hlast : lastOf nMaxSize (front :: queue ++ [x]) = queue ++ [x] := by
        rw [List.cons_append, lastOf_cons hn, lastOf_of_le fun _ => ?_]
        · rw [List.length_append, List.length_singleton]
          exact hlength.le
        · rw [List.length_append, List.length_singleton, ← hlength]
          exact Nat.lt_succ_self _
      refine ⟨rfl, hlast.symm, rfl, ?_, fun _ => ?_⟩
      · show Agree ((Insert.insert x set).erase front) (queue ++ [x])
        rw [hset]
        exact h.agree.pop.push fun hmem => hnew (List.mem_cons_of_mem _ hmem)
      · show (queue ++ [x]).length ≤ nMaxSize
        rw [List.length_append, List.length_singleton]
        exact hlength.le
  · next hroom =>
    have hsize : nMaxSize ≠ 0 → (queue ++ [x]).length ≤ nMaxSize := fun hn => by
      rw [List.length_append, List.length_singleton]
      exact Nat.lt_of_le_of_ne (h.size hn) fun heq => hroom ⟨hn, heq⟩
    exact ⟨rfl, (lastOf_of_le hsize).symm, rfl, h.agree.push hnew, hsize⟩

end calls

/-! ## Runs -/

section runs

variable [DecidableEq T]

/-- The containers are what the history of the insertions says. -/
structure Follows (s : MruSet T) (h : History T) : Prop where
  ok : s.Ok
  content : s.queue = h.content
  limit : s.nMaxSize = h.limit
  gone : h.gone ≤ h.inserted.length

theorem Follows.step {s : MruSet T} {h : History T} (hs : Follows s h) (call : Call T) :
    Follows (call.exec s) (h.step call) := by
  cases call with
  | insert x =>
    have hmem : x ∈ s.set ↔ x ∈ h.content := by rw [hs.ok.agree.mem, hs.content]
    unfold Call.exec History.step
    dsimp only
    by_cases hx : x ∈ s.set
    · rw [insert_of_mem hx, if_pos (hmem.mp hx)]
      exact hs
    · rw [if_neg fun hin => hx (hmem.mpr hin)]
      obtain ⟨-, hqueue, hlimit, hok⟩ := insert_spec hs.ok hx
      refine ⟨hok, ?_, hlimit.trans hs.limit, ?_⟩
      · rw [hqueue, History.content_settle, History.content_append hs.gone, hs.content, hs.limit]
      · refine History.gone_settle (hs.gone.trans ?_)
        rw [List.length_append]
        exact Nat.le_add_right _ _
  | clear =>
    have hnone : Agree (∅ : Finset T) [] := ⟨fun x => by simp, List.nodup_nil⟩
    exact ⟨⟨hnone, fun _ => Nat.zero_le _⟩, rfl, hs.limit, le_refl _⟩
  | maxSize n =>
    obtain ⟨hqueue, hok⟩ := setMaxSize_spec hs.ok n
    refine ⟨hok, ?_, rfl, History.gone_settle hs.gone⟩
    show (s.setMaxSize n).queue = _
    rw [hqueue, hs.content]
    exact (History.content_settle { h with limit := n }).symm

theorem follows_run (nMaxSizeIn : Nat) (calls : List (Call T)) :
    Follows (run nMaxSizeIn calls) (History.run nMaxSizeIn calls) := by
  have hcalls : ∀ {s : MruSet T} {h : History T}, Follows s h →
      Follows (calls.foldl Call.exec s) (calls.foldl History.step h) := by
    induction calls with
    | nil => exact fun hs => hs
    | cons call calls ih => exact fun hs => ih (hs.step call)
  refine hcalls ⟨⟨⟨fun x => ?_, List.nodup_nil⟩, fun _ => Nat.zero_le _⟩, rfl, rfl, le_refl _⟩
  simp [new]

/-- After any calls the set and the queue hold the same elements, each of them once and no more
than the limit allows: the insertions that have not been evicted, in their order.  A new element
goes to the end and the last elements stay; an element that is there changes nothing. -/
theorem mruset_keeps_recent (nMaxSizeIn : Nat) (calls : List (Call T)) :
    let s : MruSet T := run nMaxSizeIn calls
    let history := History.run nMaxSizeIn calls
    (∀ x, x ∈ s.set ↔ x ∈ s.queue) ∧ s.queue.Nodup ∧
      (s.nMaxSize ≠ 0 → s.set.card ≤ s.nMaxSize) ∧
      s.queue = history.content ∧ s.nMaxSize = history.limit ∧
      (∀ x, (s.insert x).2 = true ↔ x ∉ s.set) ∧
      (∀ x, (s.insert x).1.queue =
        if x ∈ s.set then s.queue else lastOf s.nMaxSize (s.queue ++ [x])) ∧
      ∀ n, (s.setMaxSize n).queue = lastOf n s.queue := by
  intro s history
  obtain ⟨hok, hcontent, hlimit, -⟩ : Follows s history := follows_run nMaxSizeIn calls
  refine ⟨hok.agree.mem, hok.agree.nodup, fun hn => ?_, hcontent, hlimit, fun x => ?_, fun x => ?_,
    fun n => (setMaxSize_spec hok n).1⟩
  · rw [hok.agree.card]
    exact hok.size hn
  · by_cases hx : x ∈ s.set
    · rw [insert_of_mem hx]
      exact iff_of_false Bool.false_ne_true (not_not.mpr hx)
    · exact iff_of_true (insert_spec hok hx).1 hx
  · by_cases hx : x ∈ s.set
    · rw [insert_of_mem hx, if_pos hx]
    · rw [if_neg hx]
      exact (insert_spec hok hx).2.1

example : (run 2 [.insert 1, .insert 2, .insert 1, .insert 3]).queue = [2, 3] := by decide

end runs

end MruSet

end NoLimitCoin
