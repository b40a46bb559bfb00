import Mathlib.Data.List.Induction
import Mathlib.Logic.Function.Basic

/-!
# Indexes of spent slots

An index that keeps, for every item, where the item is and, slot by slot, where the item is
that has taken the slot.  A new item marks the slots it takes and adds its own entry, with all
slots free; taking the item back frees them again and removes the entry.

Results:

1. `disconnect_connect` and `disconnectAll_connectAll`: taking items back restores the index.
2. `slot_ledger`: in an index built from nothing, a slot is free and no item takes it, or it
   holds the position of the one item that does; `slot_of_spends` is the converse.
3. `entry_ledger`: the entries of such an index are those of its items.
-/

/-- The position of an item, and for every slot the position of the item that has taken it. -/
structure SpendEntry (P : Type) where
  pos : P
  spent : List P

abbrev SpendIndex (H P : Type) := H → Option (SpendEntry P)

/-- An item: its name, where it is, the slots of others it takes, and how many it has. -/
structure SpendItem (H P : Type) where
  hash : H
  pos : P
  spends : List (H × Nat)
  outputs : Nat

namespace SpendIndex

variable {H P : Type} {null : P} {ix : SpendIndex H P} {item : SpendItem H P}
  {items : List (SpendItem H P)} {o : H × Nat} {q : P}

/-- What a slot holds. -/
def slot (ix : SpendIndex H P) (o : H × Nat) : Option P := (ix o.1).bind fun e => e.spent[o.2]?

theorem ext_slot {ix ix' : SpendIndex H P}
    (hpos : ∀ h, (ix h).map SpendEntry.pos = (ix' h).map SpendEntry.pos)
    (hslot : ∀ o, ix.slot o = ix'.slot o) : ix = ix' := by
  funext h
  cases he : ix h with
  | none =>
    have := hpos h
    rw [he, Option.map_none] at this
    exact (Option.map_eq_none_iff.mp this.symm).symm
  | some e =>
    have hsome := hpos h
    rw [he, Option.map_some] at hsome
    obtain ⟨e', he', hpos'⟩ := Option.map_eq_some_iff.mp hsome.symm
    rw [he']
    have hspent : e.spent = e'.spent := List.ext_getElem? fun n => by
      have := hslot (h, n)
      simpa only [slot, he, he', Option.bind_some] using this
    obtain ⟨pos, spent⟩ := e
    obtain ⟨pos', spent'⟩ := e'
    obtain rfl : pos' = pos := hpos'
    obtain rfl : spent = spent' := hspent
    rfl

theorem isSome_of_slot (h : ix.slot o = some q) : (ix o.1).isSome = true := by
  unfold slot at h
  cases he : ix o.1 with
  | none => rw [he] at h; exact absurd h nofun
  | some e => rfl

/-- The item is new to the index, and every slot it takes is free. -/
structure Connects (null : P) (ix : SpendIndex H P) (item : SpendItem H P) : Prop where
  fresh : ix item.hash = none
  free : ∀ o ∈ item.spends, ix.slot o = some null

/-- An item that connects takes no slot of its own. -/
theorem Connects.ne_hash (h : Connects null ix item) (ho : o ∈ item.spends) : o.1 ≠ item.hash := by
  intro heq
  have hsome := isSome_of_slot (h.free o ho)
  rw [heq, h.fresh] at hsome
  exact absurd hsome nofun

variable [DecidableEq H]

/-- Write `q` into a slot. -/
def mark (q : P) (ix : SpendIndex H P) (o : H × Nat) : SpendIndex H P :=
  Function.update ix o.1 ((ix o.1).map fun e => { e with spent := e.spent.set o.2 q })

def markAll (q : P) (ix : SpendIndex H P) (os : List (H × Nat)) : SpendIndex H P :=
  os.foldl (mark q) ix

/-- Add an item to the index. -/
def connect (null : P) (ix : SpendIndex H P) (item : SpendItem H P) : SpendIndex H P :=
  Function.update (markAll item.pos ix item.spends) item.hash
    (some ⟨item.pos, List.replicate item.outputs null⟩)

/-- Take an item back. -/
def disconnect (null : P) (ix : SpendIndex H P) (item : SpendItem H P) : SpendIndex H P :=
  Function.update (markAll null ix item.spends) item.hash none

/-! ## Marking slots -/

theorem pos_mark (q : P) (ix : SpendIndex H P) (o : H × Nat) (h : H) :
    (mark q ix o h).map SpendEntry.pos = (ix h).map SpendEntry.pos := by
  rw [mark, Function.update_apply]
  split
  · next heq => rw [heq, Option.map_map]; rfl
  · rfl

theorem slot_mark (q : P) (ix : SpendIndex H P) (o o' : H × Nat) :
    (mark q ix o).slot o' = if o' = o then (ix.slot o').map fun _ => q else ix.slot o' := by
  obtain ⟨h, n⟩ := o
  obtain ⟨h', n'⟩ := o'
  simp only [slot, mark, Function.update_apply, Prod.mk.injEq]
  by_cases hh : h' = h
  · subst hh
    rw [if_pos rfl]
    cases ix h' with
    | none => simp
    | some e =>
      simp only [Option.map_some, Option.bind_some, true_and, List.getElem?_set]
      by_cases hn : n' = n
      · subst hn
        rw [if_pos rfl, if_pos rfl]
        split
        · next hlt => rw [List.getElem?_eq_getElem hlt, Option.map_some]
        · next hlt => rw [List.getElem?_eq_none (by omega), Option.map_none]
      · rw [if_neg hn, if_neg (Ne.symm hn)]
  · rw [if_neg hh, if_neg (by simp [hh])]

theorem pos_markAll (q : P) (ix : SpendIndex H P) (os : List (H × Nat)) (h : H) :
    (markAll q ix os h).map SpendEntry.pos = (ix h).map SpendEntry.pos := by
  induction os generalizing ix with
  | nil => rfl
  | cons o os ih => exact (ih _).trans (pos_mark q ix o h)

theorem slot_markAll (q : P) (ix : SpendIndex H P) (os : List (H × Nat)) (o : H × Nat) :
    (markAll q ix os).slot o = if o ∈ os then (ix.slot o).map fun _ => q else ix.slot o := by
  induction os generalizing ix with
  | nil => rfl
  | cons o' os ih =>
    rw [show markAll q ix (o' :: os) = markAll q (mark q ix o') os from rfl, ih, slot_mark]
    by_cases ho : o = o'
    · subst ho
      rw [if_pos rfl, if_pos List.mem_cons_self, Option.map_map]
      exact ite_self _
    · by_cases hmem : o ∈ os <;> simp [ho, hmem]

/-! ## One item -/

theorem slot_connect (null : P) (ix : SpendIndex H P) (item : SpendItem H P) (o : H × Nat) :
    (connect null ix item).slot o =
      if o.1 = item.hash then (List.replicate item.outputs null)[o.2]?
      else if o ∈ item.spends then (ix.slot o).map fun _ => item.pos else ix.slot o := by
  by_cases heq : o.1 = item.hash
  · rw [if_pos heq]
    simp [slot, connect, heq]
  · rw [if_neg heq, ← slot_markAll]
    simp [slot, connect, Function.update_of_ne heq]

/-- Taking back an item that has just been connected restores every entry and every slot. -/
theorem disconnect_connect (h : Connects null ix item) :
    disconnect null (connect null ix item) item = ix := by
  have hother : ∀ o : H × Nat, o.1 ≠ item.hash →
      (disconnect null (connect null ix item) item).slot o = ix.slot o := by
    intro o hne
    have hslot : (disconnect null (connect null ix item) item).slot o =
        (markAll null (connect null ix item) item.spends).slot o := by
      simp [slot, disconnect, Function.update_of_ne hne]
    rw [hslot, slot_markAll, slot_connect, if_neg hne]
    by_cases ho : o ∈ item.spends
    · rw [if_pos ho, if_pos ho, h.free o ho]
      rfl
    · rw [if_neg ho, if_neg ho]
  refine ext_slot (fun k => ?_) fun o => ?_
  · by_cases hk : k = item.hash
    · rw [hk, h.fresh]
      simp [disconnect]
    · simp only [disconnect, Function.update_of_ne hk, pos_markAll]
      simp only [connect, Function.update_of_ne hk, pos_markAll]
  · by_cases ho : o.1 = item.hash
    · simp [slot, disconnect, ho, h.fresh]
    · exact hother o ho

/-! ## Runs of items -/

def connectAll (null : P) (ix : SpendIndex H P) (items : List (SpendItem H P)) : SpendIndex H P :=
  items.foldl (connect null) ix

/-- Take items back, the last one first. -/
def disconnectAll (null : P) (ix : SpendIndex H P) (items : List (SpendItem H P)) :
    SpendIndex H P :=
  items.reverse.foldl (disconnect null) ix

/-- Every item connects to the index its predecessors leave. -/
def ConnectsAll (null : P) : SpendIndex H P → List (SpendItem H P) → Prop
  | _, [] => True
  | ix, item :: items => Connects null ix item ∧ ConnectsAll null (connect null ix item) items

theorem connectAll_append (null : P) (ix : SpendIndex H P) (items items' : List (SpendItem H P)) :
    connectAll null ix (items ++ items') = connectAll null (connectAll null ix items) items' := by
  simp [connectAll]

theorem connectsAll_append {items' : List (SpendItem H P)} :
    ConnectsAll null ix (items ++ items') ↔
      ConnectsAll null ix items ∧ ConnectsAll null (connectAll null ix items) items' := by
  induction items generalizing ix with
  | nil => simp [ConnectsAll, connectAll]
  | cons item items ih =>
    rw [List.cons_append, ConnectsAll, ConnectsAll, ih, and_assoc]
    rfl

theorem disconnectAll_connectAll (h : ConnectsAll null ix items) :
    disconnectAll null (connectAll null ix items) items = ix := by
  induction items generalizing ix with
  | nil => rfl
  | cons item items ih =>
    obtain ⟨hitem, hitems⟩ := h
    rw [disconnectAll, List.reverse_cons, List.foldl_append]
    have hrest := ih hitems
    rw [disconnectAll] at hrest
    rw [show connectAll null ix (item :: items) =
      connectAll null (connect null ix item) items from rfl, hrest]
    exact disconnect_connect hitem

/-! ## Indexes built from nothing -/

/-- The index of a list of items. -/
def ledger (null : P) (items : List (SpendItem H P)) : SpendIndex H P :=
  connectAll null (fun _ => none) items

theorem ledger_concat (null : P) (items : List (SpendItem H P)) (item : SpendItem H P) :
    ledger null (items ++ [item]) = connect null (ledger null items) item := by
  rw [ledger, connectAll_append]
  rfl

/-- A list of items that can be connected from nothing. -/
def Valid (null : P) (items : List (SpendItem H P)) : Prop :=
  ConnectsAll null (fun _ => none) items ∧ ∀ item ∈ items, item.pos ≠ null

theorem valid_concat :
    Valid null (items ++ [item]) ↔
      Valid null items ∧ Connects null (ledger null items) item ∧ item.pos ≠ null := by
  rw [Valid, connectsAll_append, List.forall_mem_append]
  simp only [ConnectsAll, List.mem_singleton, forall_eq, and_true, Valid, ledger]
  tauto

/-- An entry of a ledger is that of one of its items. -/
theorem entry_ledger {e : SpendEntry P} {k : H} (h : ledger null items k = some e) :
    ∃ item ∈ items, item.hash = k ∧ e.pos = item.pos ∧ e.spent.length = item.outputs := by
  induction items using List.reverseRecOn generalizing e with
  | nil => exact absurd h nofun
  | append_singleton items item ih =>
    rw [ledger_concat, connect, Function.update_apply] at h
    split at h
    · next hk =>
      obtain rfl := Option.some.inj h
      exact ⟨item, by simp, hk.symm, rfl, by simp⟩
    · have hold : ∃ e', ledger null items k = some e' ∧ e.pos = e'.pos ∧
          e.spent.length = e'.spent.length := by
        clear ih
        generalize ledger null items = ix at h
        generalize item.spends = os at h
        induction os generalizing ix with
        | nil => exact ⟨e, h, rfl, rfl⟩
        | cons o os ihos =>
          obtain ⟨e', he', hpos, hlength⟩ := ihos (mark item.pos ix o) h
          rw [mark, Function.update_apply] at he'
          split at he'
          · next hko =>
            obtain ⟨e'', he'', rfl⟩ := Option.map_eq_some_iff.mp he'
            exact ⟨e'', hko ▸ he'', hpos, by simpa using hlength⟩
          · exact ⟨e', he', hpos, hlength⟩
      obtain ⟨e', he', hpos, hlength⟩ := hold
      obtain ⟨item', hmem, hhash, hpos', hlength'⟩ := ih he'
      exact ⟨item', by simp [hmem], hhash, hpos.trans hpos', hlength.trans hlength'⟩

/-- A slot that an item of a valid ledger takes holds its position. -/
theorem slot_of_spends (hvalid : Valid null items) (hitem : item ∈ items)
    (ho : o ∈ item.spends) : (ledger null items).slot o = some item.pos := by
  induction items using List.reverseRecOn with
  | nil => exact absurd hitem nofun
  | append_singleton items last ih =>
    obtain ⟨hold, hlast, -⟩ := valid_concat.mp hvalid
    rw [ledger_concat, slot_connect]
    rcases List.mem_append.mp hitem with hitem | hitem
    · have hslot := ih hold hitem
      rw [if_neg, if_neg, hslot]
      · intro ho'
        have hfree := hlast.free o ho'
        rw [hslot] at hfree
        exact hold.2 item hitem (Option.some.inj hfree)
      · intro heq
        have hsome := isSome_of_slot hslot
        rw [heq, hlast.fresh] at hsome
        exact absurd hsome nofun
    · obtain rfl := List.mem_singleton.mp hitem
      rw [if_neg (hlast.ne_hash ho), if_pos ho, hlast.free o ho, Option.map_some]

/-- The slots an item of a valid ledger takes belong to items of the ledger. -/
theorem isSome_of_spends (hvalid : Valid null items) (hitem : item ∈ items)
    (ho : o ∈ item.spends) : (ledger null items o.1).isSome = true :=
  isSome_of_slot (slot_of_spends hvalid hitem ho)

/-- A slot is free and no item takes it, or it holds the position of the one item that does. -/
theorem slot_ledger (hvalid : Valid null items) (h : (ledger null items).slot o = some q) :
    (q = null ∧ ∀ item ∈ items, o ∉ item.spends) ∨
      (q ≠ null ∧ ∃ item ∈ items, o ∈ item.spends ∧ item.pos = q ∧
        ∀ item' ∈ items, o ∈ item'.spends → item' = item) := by
  induction items using List.reverseRecOn generalizing q with
  | nil => exact absurd h nofun
  | append_singleton items last ih =>
    obtain ⟨hold, hlast, hpos⟩ := valid_concat.mp hvalid
    rw [ledger_concat, slot_connect] at h
    split at h
    · next hhash =>
      -- the entry is new, so nothing has taken its slots
      refine .inl ⟨?_, fun item hitem ho => ?_⟩
      · exact List.eq_of_mem_replicate (List.mem_of_getElem? h)
      · rcases List.mem_append.mp hitem with hitem | hitem
        · have hsome := isSome_of_spends hold hitem ho
          rw [hhash, hlast.fresh] at hsome
          exact absurd hsome nofun
        · rw [List.mem_singleton.mp hitem] at ho
          exact hlast.ne_hash ho hhash
    · split at h
      · next ho =>
        have hfree := hlast.free o ho
        rw [hfree, Option.map_some] at h
        obtain rfl := Option.some.inj h
        rcases ih hold hfree with ⟨-, hnone⟩ | ⟨hnull, -⟩
        · refine .inr ⟨hpos, last, by simp, ho, rfl, fun item' hitem' ho' => ?_⟩
          rcases List.mem_append.mp hitem' with hitem' | hitem'
          · exact absurd ho' (hnone item' hitem')
          · exact List.mem_singleton.mp hitem'
        · exact absurd rfl hnull
      · next ho =>
        rcases ih hold h with ⟨hq, hnone⟩ | ⟨hq, item, hitem, hspends, hitempos, hunique⟩
        · refine .inl ⟨hq, fun item hitem => ?_⟩
          rcases List.mem_append.mp hitem with hitem | hitem
          · exact hnone item hitem
          · rw [List.mem_singleton.mp hitem]
            exact ho
        · refine .inr ⟨hq, item, by simp [hitem], hspends, hitempos, fun item' hitem' ho' => ?_⟩
          rcases List.mem_append.mp hitem' with hitem' | hitem'
          · exact hunique item' hitem' ho'
          · rw [List.mem_singleton.mp hitem'] at ho'
            exact absurd ho' ho

end SpendIndex
