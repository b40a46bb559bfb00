import NoLimitCoin.Lib.Map

/-!
# Write batches

A write batch is a log of puts and deletes that is applied to a key-value store as a whole.
`pending` is what the log alone says about a key: nothing, a value, or a deletion.

Results:

1. `pending_concat`: the last entry of a log decides.
2. `getElem?_applyBatch`: a lookup after the batch is the pending answer, or the old lookup
   where the log says nothing.
-/

/-- One entry of a batch. -/
inductive BatchOp (K V : Type) where
  | put (key : K) (value : V)
  | delete (key : K)
deriving Repr, DecidableEq

namespace BatchOp

variable {K V : Type}

/-- The key an entry is about. -/
def key : BatchOp K V → K
  | put k _ => k
  | delete k => k

/-- What the entry leaves under its key. -/
def value? : BatchOp K V → Option V
  | put _ v => some v
  | delete _ => none

variable [Ord K] [Std.TransOrd K]

/-- The effect of one entry on the store. -/
def apply (m : Map K V) : BatchOp K V → Map K V
  | put k v => m.insert k v
  | delete k => m.erase k

end BatchOp

variable {K V : Type}

/-- Apply the entries of a batch in order. -/
def applyBatch [Ord K] [Std.TransOrd K] (m : Map K V) (ops : List (BatchOp K V)) : Map K V :=
  ops.foldl BatchOp.apply m

/-- What a log says about `k`: the value left by its last entry on `k`, if it has one. -/
def pending [DecidableEq K] (ops : List (BatchOp K V)) (k : K) : Option (Option V) :=
  ops.foldl (fun r op => if op.key = k then some op.value? else r) none

section pending

variable [DecidableEq K]

@[simp] theorem pending_nil (k : K) : pending ([] : List (BatchOp K V)) k = none := rfl

@[simp] theorem pending_concat (ops : List (BatchOp K V)) (op : BatchOp K V) (k : K) :
    pending (ops ++ [op]) k = if op.key = k then some op.value? else pending ops k := by
  simp [pending]

end pending

section apply

variable [Ord K] [Std.TransOrd K]

@[simp] theorem applyBatch_nil (m : Map K V) : applyBatch m [] = m := rfl

@[simp] theorem applyBatch_concat (m : Map K V) (ops : List (BatchOp K V)) (op : BatchOp K V) :
    applyBatch m (ops ++ [op]) = op.apply (applyBatch m ops) := by
  simp [applyBatch]

theorem applyBatch_append (m : Map K V) (ops later : List (BatchOp K V)) :
    applyBatch m (ops ++ later) = applyBatch (applyBatch m ops) later := by
  simp [applyBatch]

variable [Std.LawfulEqOrd K] [DecidableEq K]

theorem BatchOp.getElem?_apply (m : Map K V) (op : BatchOp K V) (k : K) :
    (op.apply m)[k]? = if op.key = k then op.value? else m[k]? := by
  cases op with
  | put key v => exact Map.getElem?_insert m key k v
  | delete key => exact Map.getElem?_erase m key k

/-- A lookup after a batch asks the log first and the old store where the log is silent. -/
theorem getElem?_applyBatch (m : Map K V) (ops : List (BatchOp K V)) (k : K) :
    (applyBatch m ops)[k]? = (pending ops k).getD m[k]? := by
  induction ops using List.reverseRecOn with
  | nil => simp
  | append_singleton ops op ih =>
    rw [applyBatch_concat, BatchOp.getElem?_apply, pending_concat]
    split
    · rfl
    · exact ih

/-- A key no entry is about keeps its value. -/
theorem getElem?_applyBatch_of_ne {m : Map K V} {ops : List (BatchOp K V)} {k : K}
    (h : ∀ op ∈ ops, op.key ≠ k) : (applyBatch m ops)[k]? = m[k]? := by
  induction ops generalizing m with
  | nil => rfl
  | cons op ops ih =>
    obtain ⟨hop, hops⟩ := List.forall_mem_cons.mp h
    rw [show applyBatch m (op :: ops) = applyBatch (op.apply m) ops from rfl, ih hops,
      BatchOp.getElem?_apply, if_neg hop]

/-- A batch that puts distinct keys puts each of them. -/
theorem getElem?_applyBatch_puts {L W : Type} {m : Map K V} (key : L → K) (value : W → V)
    (hkey : Function.Injective key) {entries : List (L × W)}
    (hdistinct : entries.Pairwise fun a b => a.1 ≠ b.1) {l : L} {x : W} (h : (l, x) ∈ entries) :
    (applyBatch m (entries.map fun e => .put (key e.1) (value e.2)))[key l]? = some (value x) := by
  induction entries generalizing m with
  | nil => exact absurd h nofun
  | cons e entries ih =>
    obtain ⟨hfirst, hrest⟩ := List.pairwise_cons.mp hdistinct
    rw [List.map_cons, show ∀ op ops, applyBatch m (op :: ops) = applyBatch (op.apply m) ops from
      fun _ _ => rfl]
    rcases List.mem_cons.mp h with rfl | h
    · rw [getElem?_applyBatch_of_ne, BatchOp.getElem?_apply]
      · exact if_pos rfl
      · intro op hop
        obtain ⟨e, he, rfl⟩ := List.mem_map.mp hop
        exact fun heq => hfirst e he (hkey heq).symm
    · exact ih hrest h

end apply
