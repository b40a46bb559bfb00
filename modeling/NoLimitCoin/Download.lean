import Mathlib.Data.Finset.Card
import Mathlib.Data.Finset.Insert
import Mathlib.Logic.Function.Basic

/-!
# Requests for announced items

`CNode::AskFor` gives every announcement of a block or transaction a slot, and `SendMessages`
sends a `getdata` for the slots of a peer whose time has come.  The time of the next slot of an
item is kept for all peers together.

Results:

1. `askFor_inv`, `getDataLoop_inv` and `step_inv`: what every event keeps of the slots.
2. `requests_spaced`: in runs in which no item gets a slot while it has one.
-/

namespace NoLimitCoin

namespace Download

/-! ## Slots -/

abbrev Peer := Nat

/-- `CInv`. -/
structure CInv where
  type : Int
  hash : Nat
deriving Repr, DecidableEq

/-- Microseconds. -/
def second : Int := 1000000

/-- What happened, for the statements below; times in microseconds. -/
inductive Entry where
  | announced (peer : Peer) (inv : CInv) (time nRequestTime : Int)
  | requested (peer : Peer) (inv : CInv) (time : Int)
  | delivered (inv : CInv)
deriving Repr, DecidableEq

/-- The part of a node that asks for items.  `nTime` is what `GetTime` returns, in seconds, and
`log` a ghost, newest entry first. -/
structure Node where
  nTime : Nat
  nLastTime : Int
  mapAlreadyAskedFor : CInv → Option Int
  mapAskFor : Peer → List (Int × CInv)
  alreadyHave : CInv → Bool
  log : List Entry

def Node.initial (nTime : Nat) : Node := ⟨nTime, 0, fun _ => none, fun _ => [], fun _ => false, []⟩

/-- Insert into a `multimap`: behind the slots of the same time. -/
def insertSlot (slot : Int × CInv) : List (Int × CInv) → List (Int × CInv)
  | [] => [slot]
  | other :: slots =>
    if slot.1 < other.1 then slot :: other :: slots else other :: insertSlot slot slots

/-- `AskFor`. -/
def askFor (node : Node) (peer : Peer) (inv : CInv) : Node :=
  let nRequestTime := (node.mapAlreadyAskedFor inv).getD 0
  let nNow := ((node.nTime : Int) - 1) * second
  let nLastTime := node.nLastTime + 1
  let nNow := max nNow nLastTime
  let nRequestTime := max (nRequestTime + 2 * 60 * second) nNow
  { node with
    nLastTime := nNow
    mapAlreadyAskedFor := Function.update node.mapAlreadyAskedFor inv (some nRequestTime)
    mapAskFor := Function.update node.mapAskFor peer
      (insertSlot (nRequestTime, inv) (node.mapAskFor peer))
    log := .announced peer inv (node.nTime * second) nRequestTime :: node.log }

/-- One item of an `inv` message. -/
def processInv (node : Node) (peer : Peer) (inv : CInv) : Node :=
  if !node.alreadyHave inv then askFor node peer inv else node

/-- The first slot of a peer is used up: the item is requested unless it is there by now. -/
def useSlot (nNow : Int) (node : Node) (peer : Peer) (inv : CInv) (rest : List (Int × CInv)) :
    Node :=
  let node :=
    if !node.alreadyHave inv then
      { node with
        mapAlreadyAskedFor := Function.update node.mapAlreadyAskedFor inv (some nNow)
        log := .requested peer inv nNow :: node.log }
    else node
  { node with mapAskFor := Function.update node.mapAskFor peer rest }

/-- The loop of `SendMessages` over the slots of a peer.  What it requests goes out in `getdata`
messages of up to 1000 items, all in the same call. -/
def getDataLoop (nNow : Int) (peer : Peer) : (slots : List (Int × CInv)) → Node → Node
  | [], node => node
  | (nRequestTime, inv) :: rest, node =>
    if nRequestTime ≤ nNow then getDataLoop nNow peer rest (useSlot nNow node peer inv rest)
    else node

/-- The end of `SendMessages`. -/
def sendGetData (node : Node) (peer : Peer) : Node :=
  getDataLoop (node.nTime * second) peer (node.mapAskFor peer) node

/-- What happens to a node. -/
inductive Event where
  /-- The clock goes on. -/
  | tick (seconds : Nat)
  /-- A peer announces an item. -/
  | inv (peer : Peer) (inv : CInv)
  /-- `SendMessages` for a peer. -/
  | sendMessages (peer : Peer)
  /-- The item arrives and is accepted. -/
  | deliver (inv : CInv)
  /-- The item comes to be known, or to be unknown again, in another way: as an orphan, or by a
  change of the best chain. -/
  | known (inv : CInv) (has : Bool)
deriving Repr, DecidableEq

def step (node : Node) : Event → Node
  | .tick seconds => { node with nTime := node.nTime + seconds }
  | .inv peer inv => processInv node peer inv
  | .sendMessages peer => sendGetData node peer
  | .deliver inv =>
    { node with
      mapAlreadyAskedFor := Function.update node.mapAlreadyAskedFor inv none
      alreadyHave := Function.update node.alreadyHave inv true
      log := .delivered inv :: node.log }
  | .known inv has => { node with alreadyHave := Function.update node.alreadyHave inv has }

def run (node : Node) (events : List Event) : Node := events.foldl step node

/-! ## What is asked -/

/-- The item has been requested at that time and not been delivered since. -/
def Open : List Entry → CInv → Int → Prop
  | [], _, _ => False
  | .requested _ inv time :: log, inv', time' => (inv = inv' ∧ time = time') ∨ Open log inv' time'
  | .delivered inv :: log, inv', time' => inv ≠ inv' ∧ Open log inv' time'
  | .announced .. :: log, inv', time' => Open log inv' time'

/-- Requests for an item that stays undelivered are two minutes apart. -/
def Spaced : List Entry → Prop
  | [] => True
  | .requested _ inv time :: log =>
    (∀ time', Open log inv time' → time' + 2 * 60 * second ≤ time) ∧ Spaced log
  | _ :: log => Spaced log

/-- The peers that have announced an item. -/
def announcers : List Entry → CInv → Finset Peer
  | [], _ => ∅
  | .announced peer inv _ _ :: log, inv' =>
    if inv = inv' then insert peer (announcers log inv') else announcers log inv'
  | _ :: log, inv' => announcers log inv'

/-- The request time of an announcement is at most two minutes after it for every peer that has
announced the item. -/
def Bounded : List Entry → Prop
  | [] => True
  | .announced peer inv time nRequestTime :: log =>
    nRequestTime ≤ time +
      2 * 60 * second * (announcers (.announced peer inv time nRequestTime :: log) inv).card ∧
      Bounded log
  | _ :: log => Bounded log

/-- The item has a slot with some peer. -/
def Queued (node : Node) (inv : CInv) : Prop := ∃ peer time, (time, inv) ∈ node.mapAskFor peer

/-- An announcement does not give the item a second slot, and the times that `AskFor` has given
out are not two minutes ahead of the clock. -/
def StepOk (node : Node) : Event → Prop
  | .inv _ inv => node.alreadyHave inv = false →
      ¬ Queued node inv ∧ node.nLastTime < ((node.nTime : Int) + 2 * 60) * second
  | _ => True

/-- Every event of the run meets the condition in the state it is in. -/
def Meets (node : Node) : List Event → Prop
  | [] => True
  | event :: events => StepOk node event ∧ Meets (step node event) events

/-! ## The invariant -/

/-- What holds between two events of such a run. -/
structure SlotInv (node : Node) : Prop where
  /-- No item has two slots. -/
  nodup : ∀ peer, ((node.mapAskFor peer).map Prod.snd).Nodup
  alone : ∀ peer peer' inv time time', (time, inv) ∈ node.mapAskFor peer →
    (time', inv) ∈ node.mapAskFor peer' → peer = peer'
  /-- The time kept for an item is that of its slot. -/
  kept : ∀ peer inv time, (time, inv) ∈ node.mapAskFor peer →
    ∀ time', node.mapAlreadyAskedFor inv = some time' → time' = time
  /-- The time kept for an item without a slot has passed. -/
  passed : ∀ inv, ¬ Queued node inv →
    ∀ time, node.mapAlreadyAskedFor inv = some time → time ≤ node.nTime * second
  /-- A slot comes two minutes after the requests before it. -/
  later : ∀ peer inv time, (time, inv) ∈ node.mapAskFor peer →
    ∀ time', Open node.log inv time' → time' + 2 * 60 * second ≤ time ∧
      node.mapAlreadyAskedFor inv = some time
  /-- So does the next slot of an item without one. -/
  next : ∀ inv, ¬ Queued node inv → ∀ time', Open node.log inv time' →
    ∃ time, node.mapAlreadyAskedFor inv = some time ∧ time' ≤ time
  spaced : Spaced node.log
  bounded : Bounded node.log

theorem mem_insertSlot {slot other : Int × CInv} {slots : List (Int × CInv)} :
    other ∈ insertSlot slot slots ↔ other = slot ∨ other ∈ slots := by
  induction slots with
  | nil => simp [insertSlot]
  | cons first slots ih =>
    unfold insertSlot
    split
    · exact List.mem_cons
    · rw [List.mem_cons, ih, List.mem_cons]
      exact or_left_comm

theorem nodup_insertSlot {slot : Int × CInv} {slots : List (Int × CInv)}
    (hslot : slot.2 ∉ slots.map Prod.snd) (h : (slots.map Prod.snd).Nodup) :
    ((insertSlot slot slots).map Prod.snd).Nodup := by
  induction slots with
  | nil => exact List.nodup_singleton _
  | cons first slots ih =>
    unfold insertSlot
    split
    · exact List.nodup_cons.mpr ⟨hslot, h⟩
    · rw [List.map_cons, List.mem_cons, not_or] at hslot
      obtain ⟨hfirst, hslots⟩ := List.nodup_cons.mp h
      refine List.nodup_cons.mpr ⟨fun hmem => ?_, ih hslot.2 hslots⟩
      obtain ⟨other, hother, heq⟩ := List.mem_map.mp hmem
      rcases mem_insertSlot.mp hother with rfl | hother
      · exact hslot.1 heq
      · exact hfirst (List.mem_map.mpr ⟨other, hother, heq⟩)

/-- The time that `AskFor` gives an announcement. -/
def requestTime (node : Node) (inv : CInv) : Int :=
  max ((node.mapAlreadyAskedFor inv).getD 0 + 2 * 60 * second)
    (max (((node.nTime : Int) - 1) * second) (node.nLastTime + 1))

section askFor

variable {node : Node} {peer : Peer} {inv : CInv}

theorem mem_askFor {peer' : Peer} {inv' : CInv} {time : Int} :
    (time, inv') ∈ (askFor node peer inv).mapAskFor peer' ↔
      (peer' = peer ∧ time = requestTime node inv ∧ inv' = inv) ∨
        (time, inv') ∈ node.mapAskFor peer' := by
  show (time, inv') ∈ Function.update node.mapAskFor peer _ peer' ↔ _
  rw [Function.update_apply]
  split
  · next heq =>
    rw [mem_insertSlot, Prod.mk.injEq, heq]
    exact or_congr_left ⟨fun h => ⟨rfl, h⟩, fun h => h.2⟩
  · next hne => exact ⟨.inr, fun h => h.resolve_left fun h => hne h.1⟩

/-- The time of a first slot is at most two minutes away. -/
theorem requestTime_le (h : SlotInv node) (hfree : ¬ Queued node inv)
    (hlast : node.nLastTime < ((node.nTime : Int) + 2 * 60) * second) :
    requestTime node inv ≤ node.nTime * second + 2 * 60 * second := by
  have hkept : (node.mapAlreadyAskedFor inv).getD 0 ≤ node.nTime * second := by
    cases htime : node.mapAlreadyAskedFor inv with
    | none => exact Int.mul_nonneg (Int.natCast_nonneg _) (by decide)
    | some time => exact h.passed inv hfree time htime
  unfold requestTime second at *
  omega

theorem add_le_requestTime {time : Int} (h : SlotInv node) (hfree : ¬ Queued node inv)
    (hopen : Open node.log inv time) : time + 2 * 60 * second ≤ requestTime node inv := by
  obtain ⟨kept, hkept, hle⟩ := h.next inv hfree time hopen
  rw [requestTime, hkept, Option.getD_some]
  omega

/-- A new slot keeps the invariant when the item has none. -/
theorem askFor_inv (h : SlotInv node) (hfree : ¬ Queued node inv)
    (hlast : node.nLastTime < ((node.nTime : Int) + 2 * 60) * second) :
    SlotInv (askFor node peer inv) := by
  have hnone : ∀ peer' time, (time, inv) ∉ node.mapAskFor peer' :=
    fun peer' time hmem => hfree ⟨peer', time, hmem⟩
  have hkept : (askFor node peer inv).mapAlreadyAskedFor inv = some (requestTime node inv) :=
    Function.update_self ..
  have hother : ∀ inv', inv' ≠ inv →
      (askFor node peer inv).mapAlreadyAskedFor inv' = node.mapAlreadyAskedFor inv' :=
    fun inv' hne => Function.update_of_ne hne ..
  have hqueued : Queued (askFor node peer inv) inv :=
    ⟨peer, _, mem_askFor.mpr (.inl ⟨rfl, rfl, rfl⟩)⟩
  have hstays : ∀ inv', ¬ Queued (askFor node peer inv) inv' → inv' ≠ inv ∧ ¬ Queued node inv' := by
    intro inv' hnot
    refine ⟨fun heq => hnot (heq ▸ hqueued), fun ⟨peer', time, hmem⟩ => ?_⟩
    exact hnot ⟨peer', time, mem_askFor.mpr (.inr hmem)⟩
  refine ⟨fun peer' => ?_, ?_, ?_, ?_, ?_, ?_, h.spaced, ?_, h.bounded⟩
  · show ((Function.update node.mapAskFor peer _ peer').map Prod.snd).Nodup
    rw [Function.update_apply]
    split
    · next heq =>
      refine nodup_insertSlot (fun hmem => ?_) (h.nodup peer)
      obtain ⟨⟨time, inv'⟩, hslot, rfl⟩ := List.mem_map.mp hmem
      exact hnone peer time hslot
    · exact h.nodup peer'
  · intro peer₁ peer₂ inv' time time' hmem hmem'
    rcases mem_askFor.mp hmem with ⟨heq, -, hinv⟩ | hmem
    · rcases mem_askFor.mp hmem' with ⟨heq', -, -⟩ | hmem'
      · rw [heq, heq']
      · exact absurd (hinv ▸ hmem') (hnone peer₂ time')
    · rcases mem_askFor.mp hmem' with ⟨-, -, hinv⟩ | hmem'
      · exact absurd (hinv ▸ hmem) (hnone peer₁ time)
      · exact h.alone _ _ _ _ _ hmem hmem'
  · intro peer' inv' time hmem time' htime
    rcases mem_askFor.mp hmem with ⟨-, htime', hinv⟩ | hmem
    · rw [hinv, hkept] at htime
      exact (htime'.trans (Option.some.inj htime)).symm
    · have hne : inv' ≠ inv := fun heq => hnone peer' time (heq ▸ hmem)
      rw [hother inv' hne] at htime
      exact h.kept peer' inv' time hmem time' htime
  · intro inv' hnot time htime
    obtain ⟨hne, hnot⟩ := hstays inv' hnot
    rw [hother inv' hne] at htime
    exact h.passed inv' hnot time htime
  · intro peer' inv' time hmem time' hopen
    rcases mem_askFor.mp hmem with ⟨-, htime, hinv⟩ | hmem
    · rw [hinv] at hopen ⊢
      rw [htime]
      exact ⟨add_le_requestTime h hfree hopen, hkept⟩
    · have hne : inv' ≠ inv := fun heq => hnone peer' time (heq ▸ hmem)
      rw [hother inv' hne]
      exact h.later peer' inv' time hmem time' hopen
  · intro inv' hnot time hopen
    obtain ⟨hne, hnot⟩ := hstays inv' hnot
    rw [hother inv' hne]
    exact h.next inv' hnot time hopen
  · -- the peer itself is one of those that have announced the item
    have hcard : 1 ≤ (announcers (askFor node peer inv).log inv).card := by
      refine Finset.card_pos.mpr ⟨peer, ?_⟩
      show peer ∈ (if inv = inv then insert peer (announcers node.log inv) else _)
      rw [if_pos rfl]
      exact Finset.mem_insert_self _ _
    have hle := requestTime_le h hfree hlast
    show requestTime node inv ≤ node.nTime * second +
      2 * 60 * second * ((announcers (askFor node peer inv).log inv).card : Int)
    unfold second at *
    omega

end askFor

section useSlot

variable {nNow time : Int} {node : Node} {peer : Peer} {inv : CInv} {rest : List (Int × CInv)}

@[simp] theorem useSlot_mapAskFor : (useSlot nNow node peer inv rest).mapAskFor =
    Function.update node.mapAskFor peer rest := by
  unfold useSlot
  dsimp only
  split <;> rfl

@[simp] theorem useSlot_nTime : (useSlot nNow node peer inv rest).nTime = node.nTime := by
  unfold useSlot
  dsimp only
  split <;> rfl

theorem mem_useSlot {peer' : Peer} {slot : Int × CInv} :
    slot ∈ (useSlot nNow node peer inv rest).mapAskFor peer' ↔
      if peer' = peer then slot ∈ rest else slot ∈ node.mapAskFor peer' := by
  rw [useSlot_mapAskFor, Function.update_apply]
  split <;> exact Iff.rfl

/-- Using up a slot keeps the invariant. -/
theorem useSlot_inv (h : SlotInv node) (hslots : node.mapAskFor peer = (time, inv) :: rest)
    (hnow : nNow = node.nTime * second) (htime : time ≤ nNow) :
    SlotInv (useSlot nNow node peer inv rest) := by
  have hslot : (time, inv) ∈ node.mapAskFor peer := hslots ▸ List.mem_cons_self
  have hnodup : inv ∉ rest.map Prod.snd ∧ (rest.map Prod.snd).Nodup := by
    have := h.nodup peer
    rw [hslots] at this
    exact List.nodup_cons.mp this
  -- the slots that are left are those of other items
  have hleft : ∀ {peer' time' inv'}, (time', inv') ∈
      (useSlot nNow node peer inv rest).mapAskFor peer' →
        (time', inv') ∈ node.mapAskFor peer' ∧ inv' ≠ inv := by
    intro peer' time' inv' hmem
    rw [mem_useSlot] at hmem
    split at hmem
    · next heq =>
      refine ⟨by rw [heq, hslots]; exact List.mem_cons_of_mem _ hmem, ?_⟩
      rintro rfl
      exact hnodup.1 (List.mem_map.mpr ⟨_, hmem, rfl⟩)
    · next hne =>
      refine ⟨hmem, ?_⟩
      rintro rfl
      exact hne (h.alone _ _ _ _ _ hmem hslot)
  have hstays : ∀ {inv'}, inv' ≠ inv → ¬ Queued (useSlot nNow node peer inv rest) inv' →
      ¬ Queued node inv' := by
    rintro inv' hne hnot ⟨peer', time', hmem⟩
    refine hnot ⟨peer', time', mem_useSlot.mpr ?_⟩
    split
    · next heq =>
      rw [heq, hslots] at hmem
      exact (List.mem_cons.mp hmem).resolve_left fun heq => hne (Prod.mk.inj heq).2
    · exact hmem
  have hnodups : ∀ peer',
      (((useSlot nNow node peer inv rest).mapAskFor peer').map Prod.snd).Nodup := by
    intro peer'
    rw [useSlot_mapAskFor, Function.update_apply]
    split
    · exact hnodup.2
    · exact h.nodup peer'
  have halone : ∀ peer₁ peer₂ inv' time₁ time₂,
      (time₁, inv') ∈ (useSlot nNow node peer inv rest).mapAskFor peer₁ →
      (time₂, inv') ∈ (useSlot nNow node peer inv rest).mapAskFor peer₂ → peer₁ = peer₂ :=
    fun _ _ _ _ _ hmem hmem' => h.alone _ _ _ _ _ (hleft hmem).1 (hleft hmem').1
  cases hhave : node.alreadyHave inv with
  | false =>
    have hother : ∀ inv', inv' ≠ inv → (useSlot nNow node peer inv rest).mapAlreadyAskedFor inv' =
        node.mapAlreadyAskedFor inv' := by
      intro inv' hne
      simp only [useSlot, hhave]
      exact Function.update_of_ne hne ..
    have hkept : (useSlot nNow node peer inv rest).mapAlreadyAskedFor inv = some nNow := by
      simp only [useSlot, hhave]
      exact Function.update_self ..
    have hlog : (useSlot nNow node peer inv rest).log = .requested peer inv nNow :: node.log := by
      simp [useSlot, hhave]
    have hclock : (useSlot nNow node peer inv rest).nTime = node.nTime := by
      simp [useSlot, hhave]
    have hopens : ∀ inv' time', inv' ≠ inv →
        Open (useSlot nNow node peer inv rest).log inv' time' → Open node.log inv' time' := by
      intro inv' time' hne hopen
      rw [hlog] at hopen
      exact hopen.resolve_left fun heq => hne heq.1.symm
    refine ⟨hnodups, halone, ?_, ?_, ?_, ?_, ?_, ?_⟩
    · intro peer' inv' time' hmem kept hkept'
      obtain ⟨hmem, hne⟩ := hleft hmem
      rw [hother inv' hne] at hkept'
      exact h.kept _ _ _ hmem _ hkept'
    · intro inv' hnot kept hkept'
      rw [hclock, ← hnow]
      by_cases hne : inv' = inv
      · rw [hne, hkept] at hkept'
        exact Int.le_of_eq (Option.some.inj hkept').symm
      · rw [hother inv' hne] at hkept'
        exact hnow ▸ h.passed inv' (hstays hne hnot) kept hkept'
    · intro peer' inv' time' hmem opened hopen
      obtain ⟨hmem, hne⟩ := hleft hmem
      rw [hother inv' hne]
      exact h.later _ _ _ hmem _ (hopens inv' opened hne hopen)
    · intro inv' hnot opened hopen
      by_cases hne : inv' = inv
      · subst hne
        refine ⟨nNow, hkept, ?_⟩
        rw [hlog] at hopen
        rcases hopen with ⟨-, heq⟩ | hopen
        · exact Int.le_of_eq heq.symm
        · obtain ⟨hle, -⟩ := h.later _ _ _ hslot _ hopen
          unfold second at hle
          omega
      · rw [hother inv' hne]
        exact h.next inv' (hstays hne hnot) opened (hopens inv' opened hne hopen)
    · rw [hlog]
      exact ⟨fun opened hopen => Int.le_trans (h.later _ _ _ hslot _ hopen).1 htime, h.spaced⟩
    · rw [hlog]
      exact h.bounded
  | true =>
    have hsame : useSlot nNow node peer inv rest =
        { node with mapAskFor := Function.update node.mapAskFor peer rest } := by
      simp [useSlot, hhave]
    rw [hsame] at hleft hstays hnodups halone ⊢
    refine ⟨hnodups, halone, ?_, ?_, ?_, ?_, h.spaced, h.bounded⟩
    · intro peer' inv' time' hmem kept hkept
      exact h.kept _ _ _ (hleft hmem).1 _ hkept
    · intro inv' hnot kept hkept
      by_cases hne : inv' = inv
      · subst hne
        rw [h.kept _ _ _ hslot _ hkept]
        exact hnow ▸ htime
      · exact h.passed inv' (hstays hne hnot) kept hkept
    · intro peer' inv' time' hmem opened hopen
      exact h.later _ _ _ (hleft hmem).1 _ hopen
    · intro inv' hnot opened hopen
      by_cases hne : inv' = inv
      · subst hne
        obtain ⟨hle, hkept⟩ := h.later _ _ _ hslot _ hopen
        refine ⟨time, hkept, ?_⟩
        unfold second at hle
        omega
      · exact h.next inv' (hstays hne hnot) opened hopen

end useSlot

/-- `SendMessages` keeps the invariant. -/
theorem getDataLoop_inv {nNow : Int} {peer : Peer} {slots : List (Int × CInv)} {node : Node}
    (h : SlotInv node) (hslots : node.mapAskFor peer = slots) (hnow : nNow = node.nTime * second) :
    SlotInv (getDataLoop nNow peer slots node) := by
  induction slots generalizing node with
  | nil => exact h
  | cons slot rest ih =>
    obtain ⟨time, inv⟩ := slot
    unfold getDataLoop
    split
    · next htime =>
      refine ih (useSlot_inv h hslots hnow htime) ?_ ?_
      · rw [useSlot_mapAskFor, Function.update_self]
      · rw [useSlot_nTime]
        exact hnow
    · exact h

/-- Every event that meets the condition keeps the invariant. -/
theorem step_inv {node : Node} {event : Event} (h : SlotInv node) (hok : StepOk node event) :
    SlotInv (step node event) := by
  cases event with
  | tick seconds =>
    refine ⟨h.nodup, h.alone, h.kept, fun inv hnot time htime => ?_, h.later, h.next, h.spaced,
      h.bounded⟩
    refine Int.le_trans (h.passed inv hnot time htime) ?_
    refine Int.mul_le_mul_of_nonneg_right ?_ (by decide)
    exact Int.ofNat_le.mpr (Nat.le_add_right _ _)
  | inv peer inv =>
    show SlotInv (processInv node peer inv)
    unfold processInv
    cases hhave : node.alreadyHave inv with
    | true => exact h
    | false =>
      obtain ⟨hfree, hlast⟩ := hok hhave
      exact askFor_inv h hfree hlast
  | sendMessages peer => exact getDataLoop_inv h rfl rfl
  | deliver inv =>
    have hother : ∀ inv', inv' ≠ inv → Function.update node.mapAlreadyAskedFor inv none inv' =
        node.mapAlreadyAskedFor inv' := fun inv' hne => Function.update_of_ne hne ..
    have hnone : Function.update node.mapAlreadyAskedFor inv none inv = none :=
      Function.update_self ..
    have hsome : ∀ {inv' time}, Function.update node.mapAlreadyAskedFor inv none inv' = some time →
        node.mapAlreadyAskedFor inv' = some time := by
      intro inv' time htime
      by_cases hne : inv' = inv
      · rw [hne, hnone] at htime
        exact absurd htime (by simp)
      · rwa [hother inv' hne] at htime
    refine ⟨h.nodup, h.alone, fun peer inv' time hmem time' htime => ?_,
      fun inv' hnot time htime => ?_, fun peer inv' time hmem time' hopen => ?_,
      fun inv' hnot time hopen => ?_, h.spaced, h.bounded⟩
    · exact h.kept peer inv' time hmem time' (hsome htime)
    · exact h.passed inv' hnot time (hsome htime)
    · obtain ⟨hne, hopen⟩ := hopen
      show _ ∧ Function.update node.mapAlreadyAskedFor inv none inv' = some time
      rw [hother inv' (Ne.symm hne)]
      exact h.later peer inv' time hmem time' hopen
    · obtain ⟨hne, hopen⟩ := hopen
      show ∃ kept, Function.update node.mapAlreadyAskedFor inv none inv' = some kept ∧ _
      rw [hother inv' (Ne.symm hne)]
      exact h.next inv' hnot time hopen
  | known inv known =>
    exact ⟨h.nodup, h.alone, h.kept, h.passed, h.later, h.next, h.spaced, h.bounded⟩

theorem run_inv {node : Node} {events : List Event} (h : SlotInv node) (hok : Meets node events) :
    SlotInv (run node events) := by
  induction events generalizing node with
  | nil => exact h
  | cons event events ih => exact ih (step_inv h hok.1) hok.2

/-! ## Runs -/

/-- In every run in which no announcement gives an item a second slot, requests for an item that
stays undelivered are two minutes apart, and request times are bounded by the number of peers. -/
theorem requests_spaced (nTime : Nat) (events : List Event) (h : Meets (.initial nTime) events) :
    Spaced (run (.initial nTime) events).log ∧ Bounded (run (.initial nTime) events).log := by
  have hinit : SlotInv (.initial nTime) := by
    refine ⟨fun _ => List.nodup_nil, ?_, ?_, ?_, ?_, ?_, trivial, trivial⟩
    · exact fun _ _ _ _ _ hmem => absurd hmem List.not_mem_nil
    · exact fun _ _ _ hmem => absurd hmem List.not_mem_nil
    · exact fun _ _ _ htime => absurd htime (by simp [Node.initial])
    · exact fun _ _ _ hmem => absurd hmem List.not_mem_nil
    · exact fun _ _ _ hopen => hopen.elim
  have hinv := run_inv hinit h
  exact ⟨hinv.spaced, hinv.bounded⟩

/-- A block that a peer announces, then another one once it has been asked for. -/
def retryEvents : List Event :=
  [.inv 1 ⟨2, 7⟩, .sendMessages 1, .inv 2 ⟨2, 7⟩, .tick 120, .sendMessages 2]

theorem requests_spaced_retry : Spaced (run (.initial 1000) retryEvents).log ∧
    Bounded (run (.initial 1000) retryEvents).log := by
  refine requests_spaced 1000 retryEvents ⟨fun _ => ⟨?_, by decide⟩, trivial,
    fun _ => ⟨?_, by decide⟩, trivial, trivial, trivial⟩
  · rintro ⟨peer, time, hmem⟩
    exact absurd hmem List.not_mem_nil
  · rintro ⟨peer, time, hmem⟩
    rw [show step (step (.initial 1000) (.inv 1 ⟨2, 7⟩)) (.sendMessages 1) = useSlot 1000000000
      (askFor (.initial 1000) 1 ⟨2, 7⟩) 1 ⟨2, 7⟩ [] from rfl, mem_useSlot] at hmem
    split at hmem
    · exact absurd hmem List.not_mem_nil
    · next hne =>
      rcases mem_askFor.mp hmem with ⟨heq, -⟩ | hmem
      · exact hne heq
      · exact absurd hmem List.not_mem_nil

/-- Two peers announce a block in the same second: the second request follows 119 seconds after
the first.  A peer that announces a block twice puts off its request by itself. -/
def hastyEvents : List Event :=
  [.inv 1 ⟨2, 7⟩, .inv 2 ⟨2, 7⟩, .sendMessages 1, .tick 119, .sendMessages 2, .inv 3 ⟨2, 8⟩,
    .inv 3 ⟨2, 8⟩, .inv 3 ⟨2, 8⟩]

theorem requests_not_spaced : ¬ Spaced (run (.initial 1000) hastyEvents).log ∧
    ¬ Bounded (run (.initial 1000) hastyEvents).log := by
  have hlog : (run (.initial 1000) hastyEvents).log =
      [.announced 3 ⟨2, 8⟩ 1119000000 1358000000, .announced 3 ⟨2, 8⟩ 1119000000 1238000000,
        .announced 3 ⟨2, 8⟩ 1119000000 1118000000, .requested 2 ⟨2, 7⟩ 1119000000,
        .requested 1 ⟨2, 7⟩ 1000000000, .announced 2 ⟨2, 7⟩ 1000000000 1119000000,
        .announced 1 ⟨2, 7⟩ 1000000000 999000000] := by decide +kernel
  rw [hlog]
  constructor
  · rintro ⟨hspaced, -⟩
    exact absurd (hspaced 1000000000 (.inl ⟨rfl, rfl⟩)) (by decide)
  · rintro ⟨hbound, -⟩
    exact absurd hbound (by decide)

end Download

end NoLimitCoin
