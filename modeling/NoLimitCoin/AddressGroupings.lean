import NoLimitCoin.Lib.Merging
import NoLimitCoin.CreateTransaction

/-!
# Address groupings

`GetAddressGroupings` of `wallet.cpp` puts the addresses that a payment shows to belong together
into one set.  It first collects small sets from each transaction of the wallet, reading the
outputs that are spent through `mapWallet[]`, and then merges the sets that overlap.

Results:
1. `collectGroupings_eq_ok`: what is collected, and when nothing goes wrong.
2. `groupingsRight_iff`: exactly when the groupings are the connected components.
-/

namespace NoLimitCoin

open Prog
open KeyPool (Thrown)
open Interpreter (Valtype)

namespace AddressGroupings

/-! ## The code -/

/-- How a `std::set` of sets goes over its elements. -/
structure SetOrder where
  sort : List (Finset CTxDestination) → List (Finset CTxDestination)
  perm : ∀ l, (sort l).Perm l

structure GroupEnv where
  hash160 : Valtype → Valtype
  /-- `IsMine` of an output. -/
  isMine : CTxOut → Bool
  /-- `IsChange`. -/
  isChange : CTxOut → Bool
  /-- `GetAdjustedTime`, the time of a default transaction. -/
  nAdjustedTime : Nat
  order : SetOrder

/-- A computation on `mapWallet`. -/
abbrev GroupM := EStateM Thrown (Map Uint256 CWalletTx)

def get : GroupM (Map Uint256 CWalletTx) := fun wallet => .ok wallet wallet

/-- `mapWallet[hash]`: a transaction that is not there is inserted with its default value. -/
def subscript (genv : GroupEnv) (hash : Uint256) : GroupM CWalletTx := fun wallet =>
  let found := Map.subscript wallet hash
    (.ofTx { CTransaction.default with nTime := genv.nAdjustedTime })
  .ok found.1 found.2

/-- `ExtractDestination`. -/
def addressOf (genv : GroupEnv) (txout : CTxOut) : Option CTxDestination :=
  extractDestination genv.hash160 txout.scriptPubKey

/-- `grouping.insert`, if there is an address. -/
def addAddress (grouping : Finset CTxDestination) : Option CTxDestination → Finset CTxDestination
  | some address => insert address grouping
  | none => grouping

/-- The output that an input spends, where the wallet has it. -/
def prevOut (wallet : Map Uint256 CWalletTx) (txin : CTxIn) : Option CTxOut :=
  wallet[txin.prevout.hash]?.bind fun prev => prev.tx.vout[txin.prevout.n]?

/-- `IsMine` of an input. -/
def isMineIn (genv : GroupEnv) (wallet : Map Uint256 CWalletTx) (txin : CTxIn) : Bool :=
  match prevOut wallet txin with
  | some txout => genv.isMine txout
  | none => false

/-- `pcoin->vin.size() > 0 && IsMine(pcoin->vin[0])`. -/
def isOwn (genv : GroupEnv) (wallet : Map Uint256 CWalletTx) (tx : CTransaction) : Bool :=
  match tx.vin with
  | [] => false
  | txin :: _ => isMineIn genv wallet txin

/-- `mapWallet[txin.prevout.hash].vout[txin.prevout.n]`, whose address goes into the grouping. -/
def addInput (genv : GroupEnv) (grouping : Finset CTxDestination) (txin : CTxIn) :
    GroupM (Finset CTxDestination) := do
  let prev ← subscript genv txin.prevout.hash
  match prev.tx.vout[txin.prevout.n]? with
  | some txout => pure (addAddress grouping (addressOf genv txout))
  | none => throw (.undefined "vout[txin.prevout.n]")

/-- An output goes into the grouping if it is change; a copy of the first transaction that is spent
is made and not used. -/
def addChange (genv : GroupEnv) (tx : CTransaction) (grouping : Finset CTxDestination)
    (txout : CTxOut) : GroupM (Finset CTxDestination) :=
  if genv.isChange txout then
    match tx.vin with
    | [] => throw (.undefined "vin[0]")
    | txin :: _ => do
      let _ ← subscript genv txin.prevout.hash
      pure (addAddress grouping (addressOf genv txout))
  else pure grouping

/-- The grouping of the inputs and the change of a transaction. -/
def ownGrouping (genv : GroupEnv) (tx : CTransaction) : GroupM (Finset CTxDestination) := do
  let grouping ← tx.vin.foldlM (addInput genv) ∅
  tx.vout.foldlM (addChange genv tx) grouping

/-- The lone addresses: each own output by itself. -/
def addLone (genv : GroupEnv) (groupings : List (Finset CTxDestination)) (txout : CTxOut) :
    List (Finset CTxDestination) :=
  if genv.isMine txout then
    match addressOf genv txout with
    | some address => groupings.insert {address}
    | none => groupings
  else groupings

/-- What one transaction of the wallet adds. -/
def collectTx (genv : GroupEnv) (groupings : List (Finset CTxDestination)) (tx : CTransaction) :
    GroupM (List (Finset CTxDestination)) := do
  let wallet ← get
  if isOwn genv wallet tx then do
    let grouping ← ownGrouping genv tx
    pure (tx.vout.foldl (addLone genv) (groupings.insert grouping))
  else pure (tx.vout.foldl (addLone genv) groupings)

/-- The first loop of `GetAddressGroupings`. -/
def collectGroupings (genv : GroupEnv) : GroupM (List (Finset CTxDestination)) := do
  -- an entry that the loop inserts itself has no outputs, and reading one ends the loop
  let wallet ← get
  wallet.toList.foldlM (fun groupings entry => collectTx genv groupings entry.2.tx) []

/-- `GetAddressGroupings`; `uniqueGroupings` are the live groups of the merging, `setmap` is
`groupOf`. -/
def getAddressGroupings (genv : GroupEnv) : GroupM (Finset (Finset CTxDestination)) := do
  let groupings ← collectGroupings genv
  pure (Merging.result (Merging.mergeAll (genv.order.sort groupings)))

/-! ## What it is for -/

section purpose

variable (genv : GroupEnv) (wallet : Map Uint256 CWalletTx)

/-- An input of the transaction spends an output to the address. -/
def IsInput (tx : CTransaction) (address : CTxDestination) : Prop :=
  ∃ txin ∈ tx.vin, (prevOut wallet txin).bind (addressOf genv) = some address

/-- The address is of a change output of the transaction. -/
def IsChangeOf (tx : CTransaction) (address : CTxDestination) : Prop :=
  ∃ txout ∈ tx.vout, genv.isChange txout = true ∧ addressOf genv txout = some address

/-- A transaction of the wallet whose first input is its own. -/
def Own (tx : CTransaction) : Prop :=
  ∃ entry ∈ wallet.toList, entry.2.tx = tx ∧ isOwn genv wallet tx = true

/-- Inputs of the same own transaction, or an input and a change output of it. -/
def Related (a b : CTxDestination) : Prop :=
  ∃ tx, Own genv wallet tx ∧ (IsInput genv wallet tx a ∧ IsInput genv wallet tx b ∨
    IsInput genv wallet tx a ∧ IsChangeOf genv tx b ∨
    IsChangeOf genv tx a ∧ IsInput genv wallet tx b)

/-- An address of an own transaction's inputs or change, or of an own output. -/
def Mentioned (a : CTxDestination) : Prop :=
  (∃ tx, Own genv wallet tx ∧ (IsInput genv wallet tx a ∨ IsChangeOf genv tx a)) ∨
    ∃ entry ∈ wallet.toList, ∃ txout ∈ entry.2.tx.vout,
      genv.isMine txout = true ∧ addressOf genv txout = some a

/-- `GetAddressGroupings` leaves `mapWallet` as it is and returns the connected components. -/
def GroupingsRight : Prop :=
  ∃ groupings, getAddressGroupings genv wallet = .ok groupings wallet ∧ ∅ ∉ groupings ∧
    (∀ g ∈ groupings, ∀ g' ∈ groupings, ∀ a, a ∈ g → a ∈ g' → g = g') ∧
    (∀ a, (∃ g ∈ groupings, a ∈ g) ↔ Mentioned genv wallet a) ∧
    ∀ a b, Mentioned genv wallet a → ((∃ g ∈ groupings, a ∈ g ∧ b ∈ g) ↔
      Relation.ReflTransGen (Related genv wallet) a b)

/-- The wallet has every output that an own transaction spends.  Such a transaction shows the
address of an input, or else addresses of change that are connected anyway. -/
def Complete : Prop :=
  ∀ tx, Own genv wallet tx → (∀ txin ∈ tx.vin, ∃ txout, prevOut wallet txin = some txout) ∧
    ((∃ a, IsInput genv wallet tx a) ∨ (∃ a, IsChangeOf genv tx a) ∧
      ∀ a b, IsChangeOf genv tx a → IsChangeOf genv tx b →
        Relation.ReflTransGen (Related genv wallet) a b)

end purpose

/-! ## Collecting -/

/-- A loop whose steps only read the state. -/
theorem foldlM_eq_ok {ε σ α β : Type} {f : β → α → EStateM ε σ β} {P : α → Prop} {g : β → α → β}
    {s : σ} {l : List α} (h : ∀ a ∈ l, ∀ b r s', f b a s = .ok r s' ↔ P a ∧ r = g b a ∧ s' = s)
    (b r : β) (s' : σ) :
    l.foldlM f b s = .ok r s' ↔ (∀ a ∈ l, P a) ∧ r = l.foldl g b ∧ s' = s := by
  induction l generalizing b with
  | nil =>
    rw [List.foldlM_nil, pure_eq_ok]
    exact ⟨fun h => ⟨fun _ ha => absurd ha List.not_mem_nil, h⟩, fun h => h.2⟩
  | cons a l ih =>
    rw [List.forall_mem_cons] at h
    rw [List.foldlM_cons, bind_eq_ok, List.forall_mem_cons]
    constructor
    · rintro ⟨b', s₁, hstep, hrest⟩
      obtain ⟨hP, rfl, rfl⟩ := (h.1 _ _ _).mp hstep
      obtain ⟨hall, hr⟩ := (ih h.2 _).mp hrest
      exact ⟨⟨hP, hall⟩, hr⟩
    · rintro ⟨⟨hP, hall⟩, hr⟩
      exact ⟨_, _, (h.1 _ _ _).mpr ⟨hP, rfl, rfl⟩, (ih h.2 _).mpr ⟨hall, hr⟩⟩

theorem mem_addAddress {grouping : Finset CTxDestination} {address : Option CTxDestination}
    {a : CTxDestination} : a ∈ addAddress grouping address ↔ a ∈ grouping ∨ address = some a := by
  cases address with
  | none => exact ⟨.inl, fun h => h.resolve_right fun h => by cases h⟩
  | some b =>
    show a ∈ insert b grouping ↔ _
    rw [Finset.mem_insert, Option.some.injEq, or_comm, eq_comm]

theorem mem_foldl_addAddress {α : Type} (f : α → Option CTxDestination) (l : List α)
    (grouping : Finset CTxDestination) (a : CTxDestination) :
    a ∈ l.foldl (fun grouping x => addAddress grouping (f x)) grouping ↔
      a ∈ grouping ∨ ∃ x ∈ l, f x = some a := by
  induction l generalizing grouping with
  | nil => simp
  | cons x l ih =>
    rw [List.foldl_cons, ih, mem_addAddress, List.exists_mem_cons_iff, or_assoc]

section collecting

variable {genv : GroupEnv} {wallet : Map Uint256 CWalletTx} {tx : CTransaction}

theorem subscript_of_some {hash : Uint256} {wtx : CWalletTx} (h : wallet[hash]? = some wtx) :
    subscript genv hash wallet = .ok wtx wallet := by
  unfold subscript Map.subscript
  rw [h]

/-- An input is read when the wallet has the output. -/
theorem addInput_eq_ok (txin : CTxIn) (grouping r : Finset CTxDestination)
    (wallet' : Map Uint256 CWalletTx) : addInput genv grouping txin wallet = .ok r wallet' ↔
      (∃ txout, prevOut wallet txin = some txout) ∧
        r = addAddress grouping ((prevOut wallet txin).bind (addressOf genv)) ∧
          wallet' = wallet := by
  unfold addInput prevOut
  rw [bind_run]
  cases hprev : wallet[txin.prevout.hash]? with
  | none =>
    have hdefault : subscript genv txin.prevout.hash wallet =
        .ok (.ofTx { CTransaction.default with nTime := genv.nAdjustedTime })
          (wallet.insert txin.prevout.hash
            (.ofTx { CTransaction.default with nTime := genv.nAdjustedTime })) := by
      unfold subscript Map.subscript
      rw [hprev]
    rw [hdefault]
    constructor
    · intro h
      cases h
    · rintro ⟨⟨txout, h⟩, -⟩
      cases h
  | some prev =>
    rw [subscript_of_some hprev]
    dsimp only [Option.bind_some]
    cases hout : prev.tx.vout[txin.prevout.n]? with
    | none =>
      constructor
      · intro h
        cases h
      · rintro ⟨⟨txout, h⟩, -⟩
        cases h
    | some txout =>
      rw [pure_eq_ok]
      exact ⟨fun h => ⟨⟨txout, rfl⟩, h⟩, fun h => h.2⟩

/-- The grouping of an own transaction, from the outputs that the wallet has. -/
def groupingOf (genv : GroupEnv) (wallet : Map Uint256 CWalletTx) (tx : CTransaction) :
    Finset CTxDestination :=
  tx.vout.foldl (fun grouping txout => addAddress grouping
      (if genv.isChange txout then addressOf genv txout else none))
    (tx.vin.foldl (fun grouping txin => addAddress grouping
      ((prevOut wallet txin).bind (addressOf genv))) ∅)

theorem mem_groupingOf {a : CTxDestination} : a ∈ groupingOf genv wallet tx ↔
    IsInput genv wallet tx a ∨ IsChangeOf genv tx a := by
  unfold groupingOf
  rw [mem_foldl_addAddress, mem_foldl_addAddress]
  refine or_congr ⟨fun h => h.resolve_left (Finset.notMem_empty a), .inr⟩ ?_
  refine exists_congr fun txout => and_congr_right fun _ => ?_
  cases genv.isChange txout with
  | true => exact ⟨fun h => ⟨rfl, h⟩, fun h => h.2⟩
  | false => exact ⟨(fun h => by cases h), fun h => by cases h.1⟩

/-- The change is added without looking at what is spent again. -/
theorem addChange_eq_ok (hown : isOwn genv wallet tx = true) (txout : CTxOut)
    (grouping r : Finset CTxDestination) (wallet' : Map Uint256 CWalletTx) :
    addChange genv tx grouping txout wallet = .ok r wallet' ↔ True ∧
      r = addAddress grouping (if genv.isChange txout then addressOf genv txout else none) ∧
        wallet' = wallet := by
  unfold isOwn at hown
  unfold addChange
  rw [true_and]
  cases genv.isChange txout with
  | false =>
    rw [if_neg (by decide), if_neg (by decide), pure_eq_ok]
    rfl
  | true =>
    rw [if_pos rfl, if_pos rfl]
    cases hvin : tx.vin with
    | nil =>
      rw [hvin] at hown
      cases hown
    | cons txin vin =>
      rw [hvin] at hown
      dsimp only at hown ⊢
      unfold isMineIn prevOut at hown
      cases hprev : wallet[txin.prevout.hash]? with
      | none =>
        rw [hprev] at hown
        cases hown
      | some prev => rw [bind_run, subscript_of_some hprev, pure_eq_ok]

theorem ownGrouping_eq_ok (hown : isOwn genv wallet tx = true) (r : Finset CTxDestination)
    (wallet' : Map Uint256 CWalletTx) : ownGrouping genv tx wallet = .ok r wallet' ↔
      (∀ txin ∈ tx.vin, ∃ txout, prevOut wallet txin = some txout) ∧
        r = groupingOf genv wallet tx ∧ wallet' = wallet := by
  unfold ownGrouping
  have hinputs := foldlM_eq_ok (s := wallet) (l := tx.vin) fun txin _ grouping r wallet' =>
    @addInput_eq_ok genv wallet txin grouping r wallet'
  have hchange := foldlM_eq_ok (s := wallet) (l := tx.vout) fun txout _ grouping r wallet' =>
    addChange_eq_ok hown txout grouping r wallet'
  rw [bind_eq_ok]
  constructor
  · rintro ⟨grouping, wallet₁, hin, hout⟩
    obtain ⟨hall, rfl, rfl⟩ := (hinputs _ _ _).mp hin
    exact ⟨hall, ((hchange _ _ _).mp hout).2⟩
  · rintro ⟨hall, hr⟩
    exact ⟨_, wallet, (hinputs _ _ _).mpr ⟨hall, rfl, rfl⟩,
      (hchange _ _ _).mpr ⟨fun _ _ => trivial, hr⟩⟩

/-- What one transaction adds, from the outputs that the wallet has. -/
def collected (genv : GroupEnv) (wallet : Map Uint256 CWalletTx)
    (groupings : List (Finset CTxDestination)) (tx : CTransaction) :
    List (Finset CTxDestination) :=
  tx.vout.foldl (addLone genv)
    (if isOwn genv wallet tx then groupings.insert (groupingOf genv wallet tx) else groupings)

theorem collectTx_eq_ok (groupings r : List (Finset CTxDestination))
    (wallet' : Map Uint256 CWalletTx) : collectTx genv groupings tx wallet = .ok r wallet' ↔
      (isOwn genv wallet tx = true →
        ∀ txin ∈ tx.vin, ∃ txout, prevOut wallet txin = some txout) ∧
        r = collected genv wallet groupings tx ∧ wallet' = wallet := by
  unfold collectTx collected
  show (if isOwn genv wallet tx then _ else _ : GroupM _) wallet = _ ↔ _
  cases hown : isOwn genv wallet tx with
  | false =>
    rw [if_neg (by decide), if_neg (by decide), pure_eq_ok]
    exact ⟨fun h => ⟨(fun h => by cases h), h⟩, fun h => h.2⟩
  | true =>
    rw [if_pos rfl, if_pos rfl, bind_eq_ok]
    constructor
    · rintro ⟨grouping, wallet₁, hgrouping, hr⟩
      obtain ⟨hall, rfl, rfl⟩ := (ownGrouping_eq_ok hown _ _).mp hgrouping
      exact ⟨fun _ => hall, pure_eq_ok.mp hr⟩
    · rintro ⟨hall, hr⟩
      exact ⟨_, wallet, (ownGrouping_eq_ok hown _ _).mpr ⟨hall rfl, rfl, rfl⟩, pure_eq_ok.mpr hr⟩

/-- All that is collected, from the outputs that the wallet has. -/
def allCollected (genv : GroupEnv) (wallet : Map Uint256 CWalletTx) :
    List (Finset CTxDestination) :=
  wallet.toList.foldl (fun groupings entry => collected genv wallet groupings entry.2.tx) []

/-- The first loop works when the wallet has what its own transactions spend. -/
theorem collectGroupings_eq_ok (r : List (Finset CTxDestination))
    (wallet' : Map Uint256 CWalletTx) : collectGroupings genv wallet = .ok r wallet' ↔
      (∀ tx, Own genv wallet tx → ∀ txin ∈ tx.vin, ∃ txout, prevOut wallet txin = some txout) ∧
        r = allCollected genv wallet ∧ wallet' = wallet := by
  unfold collectGroupings
  show (wallet.toList.foldlM (fun groupings entry => collectTx genv groupings entry.2.tx) [])
    wallet = _ ↔ _
  rw [foldlM_eq_ok (s := wallet) fun entry _ groupings r wallet' =>
    @collectTx_eq_ok genv wallet entry.2.tx groupings r wallet']
  refine and_congr_left fun _ => ⟨?_, ?_⟩
  · rintro hall tx ⟨entry, hmem, rfl, hown⟩
    exact hall entry hmem hown
  · exact fun hall entry hmem hown => hall entry.2.tx ⟨entry, hmem, rfl, hown⟩

theorem mem_addLone {groupings : List (Finset CTxDestination)} {txout : CTxOut}
    {g : Finset CTxDestination} : g ∈ addLone genv groupings txout ↔
      g ∈ groupings ∨ genv.isMine txout = true ∧ ∃ a, addressOf genv txout = some a ∧ g = {a} := by
  unfold addLone
  cases genv.isMine txout with
  | false => exact ⟨.inl, fun h => h.resolve_right fun h => by cases h.1⟩
  | true =>
    rw [if_pos rfl]
    cases addressOf genv txout with
    | none => simp
    | some address =>
      dsimp only
      rw [List.mem_insert_iff, or_comm]
      refine or_congr_right ⟨fun h => ⟨rfl, address, rfl, h⟩, ?_⟩
      rintro ⟨-, a, h, rfl⟩
      rw [Option.some.inj h]

theorem mem_foldl_addLone {g : Finset CTxDestination} (vout : List CTxOut)
    (groupings : List (Finset CTxDestination)) : g ∈ vout.foldl (addLone genv) groupings ↔
      g ∈ groupings ∨ ∃ txout ∈ vout, genv.isMine txout = true ∧
        ∃ a, addressOf genv txout = some a ∧ g = {a} := by
  induction vout generalizing groupings with
  | nil => simp
  | cons txout vout ih => rw [List.foldl_cons, ih, mem_addLone, List.exists_mem_cons_iff, or_assoc]

theorem mem_collected {g : Finset CTxDestination} {groupings : List (Finset CTxDestination)} :
    g ∈ collected genv wallet groupings tx ↔ g ∈ groupings ∨
      (isOwn genv wallet tx = true ∧ g = groupingOf genv wallet tx ∨
        ∃ txout ∈ tx.vout, genv.isMine txout = true ∧
          ∃ a, addressOf genv txout = some a ∧ g = {a}) := by
  unfold collected
  rw [mem_foldl_addLone, ← or_assoc]
  refine or_congr_left ?_
  cases isOwn genv wallet tx with
  | false => exact ⟨.inl, fun h => h.resolve_right fun h => by cases h.1⟩
  | true =>
    rw [if_pos rfl, List.mem_insert_iff, or_comm]
    exact or_congr_right ⟨fun h => ⟨rfl, h⟩, fun h => h.2⟩

/-- The groupings of own transactions and the lone addresses are collected. -/
theorem mem_allCollected {g : Finset CTxDestination} : g ∈ allCollected genv wallet ↔
    (∃ tx, Own genv wallet tx ∧ g = groupingOf genv wallet tx) ∨
      ∃ entry ∈ wallet.toList, ∃ txout ∈ entry.2.tx.vout, genv.isMine txout = true ∧
        ∃ a, addressOf genv txout = some a ∧ g = {a} := by
  have hfold : ∀ (entries : List (Uint256 × CWalletTx)) (groupings : List (Finset CTxDestination)),
      g ∈ entries.foldl (fun groupings entry => collected genv wallet groupings entry.2.tx)
        groupings ↔ g ∈ groupings ∨ ∃ entry ∈ entries,
          (isOwn genv wallet entry.2.tx = true ∧ g = groupingOf genv wallet entry.2.tx ∨
            ∃ txout ∈ entry.2.tx.vout, genv.isMine txout = true ∧
              ∃ a, addressOf genv txout = some a ∧ g = {a}) := by
    intro entries
    induction entries with
    | nil => simp
    | cons entry entries ih =>
      intro groupings
      rw [List.foldl_cons, ih, mem_collected, List.exists_mem_cons_iff, or_assoc]
  unfold allCollected
  rw [hfold]
  constructor
  · intro h
    obtain ⟨entry, hmem, hown | hlone⟩ := h.resolve_left List.not_mem_nil
    · exact .inl ⟨entry.2.tx, ⟨entry, hmem, rfl, hown.1⟩, hown.2⟩
    · exact .inr ⟨entry, hmem, hlone⟩
  · rintro (⟨tx, ⟨entry, hmem, rfl, hown⟩, rfl⟩ | ⟨entry, hmem, hlone⟩)
    · exact .inr ⟨entry, hmem, .inl ⟨hown, rfl⟩⟩
    · exact .inr ⟨entry, hmem, .inr hlone⟩

end collecting

/-! ## The components -/

section components

variable {genv : GroupEnv} {wallet : Map Uint256 CWalletTx}

/-- The groupings are what is collected, merged. -/
theorem getAddressGroupings_eq_ok (r : Finset (Finset CTxDestination))
    (wallet' : Map Uint256 CWalletTx) : getAddressGroupings genv wallet = .ok r wallet' ↔
      (∀ tx, Own genv wallet tx → ∀ txin ∈ tx.vin, ∃ txout, prevOut wallet txin = some txout) ∧
        r = Merging.result (Merging.mergeAll (genv.order.sort (allCollected genv wallet))) ∧
          wallet' = wallet := by
  unfold getAddressGroupings
  rw [bind_eq_ok]
  constructor
  · rintro ⟨groupings, wallet₁, hcollect, hr⟩
    obtain ⟨hall, rfl, rfl⟩ := (collectGroupings_eq_ok _ _).mp hcollect
    exact ⟨hall, pure_eq_ok.mp hr⟩
  · rintro ⟨hall, hr⟩
    exact ⟨_, wallet, (collectGroupings_eq_ok _ _).mpr ⟨hall, rfl, rfl⟩, pure_eq_ok.mpr hr⟩

theorem mem_sorted {g : Finset CTxDestination} :
    g ∈ genv.order.sort (allCollected genv wallet) ↔ g ∈ allCollected genv wallet :=
  (genv.order.perm _).mem_iff

/-- What is collected mentions the addresses that it should. -/
theorem mentioned_iff (a : CTxDestination) :
    (∃ g ∈ genv.order.sort (allCollected genv wallet), a ∈ g) ↔ Mentioned genv wallet a := by
  constructor
  · rintro ⟨g, hg, ha⟩
    rcases mem_allCollected.mp (mem_sorted.mp hg) with ⟨tx, hown, rfl⟩ |
      ⟨entry, hentry, txout, hout, hmine, b, hb, rfl⟩
    · exact .inl ⟨tx, hown, mem_groupingOf.mp ha⟩
    · rw [Finset.mem_singleton.mp ha]
      exact .inr ⟨entry, hentry, txout, hout, hmine, hb⟩
  · rintro (⟨tx, hown, ha⟩ | ⟨entry, hentry, txout, hout, hmine, ha⟩)
    · exact ⟨_, mem_sorted.mpr (mem_allCollected.mpr (.inl ⟨tx, hown, rfl⟩)),
        mem_groupingOf.mpr ha⟩
    · exact ⟨{a}, mem_sorted.mpr (mem_allCollected.mpr
        (.inr ⟨entry, hentry, txout, hout, hmine, a, ha, rfl⟩)), Finset.mem_singleton_self a⟩

theorem linked_of_own {tx : CTransaction} (hown : Own genv wallet tx) {a b : CTxDestination}
    (ha : IsInput genv wallet tx a ∨ IsChangeOf genv tx a)
    (hb : IsInput genv wallet tx b ∨ IsChangeOf genv tx b) :
    Merging.Linked (genv.order.sort (allCollected genv wallet)) a b :=
  ⟨_, mem_sorted.mpr (mem_allCollected.mpr (.inl ⟨tx, hown, rfl⟩)), mem_groupingOf.mpr ha,
    mem_groupingOf.mpr hb⟩

theorem linked_of_related {a b : CTxDestination} (h : Related genv wallet a b) :
    Merging.Linked (genv.order.sort (allCollected genv wallet)) a b := by
  obtain ⟨tx, hown, ⟨ha, hb⟩ | ⟨ha, hb⟩ | ⟨ha, hb⟩⟩ := h
  · exact linked_of_own hown (.inl ha) (.inl hb)
  · exact linked_of_own hown (.inl ha) (.inr hb)
  · exact linked_of_own hown (.inr ha) (.inl hb)

/-- In a complete wallet a set links only what is connected. -/
theorem connected_of_linked (hcomplete : Complete genv wallet) {a b : CTxDestination}
    (h : Merging.Linked (genv.order.sort (allCollected genv wallet)) a b) :
    Relation.ReflTransGen (Related genv wallet) a b := by
  obtain ⟨g, hg, ha, hb⟩ := h
  rcases mem_allCollected.mp (mem_sorted.mp hg) with ⟨tx, hown, rfl⟩ |
    ⟨entry, hentry, txout, hout, hmine, c, hc, rfl⟩
  · rcases mem_groupingOf.mp ha with ha | ha
    · rcases mem_groupingOf.mp hb with hb | hb
      · exact .single ⟨tx, hown, .inl ⟨ha, hb⟩⟩
      · exact .single ⟨tx, hown, .inr (.inl ⟨ha, hb⟩)⟩
    · rcases mem_groupingOf.mp hb with hb | hb
      · exact .single ⟨tx, hown, .inr (.inr ⟨ha, hb⟩)⟩
      · -- two change addresses are connected by an input, if one has an address
        rcases (hcomplete tx hown).2 with ⟨c, hc⟩ | ⟨-, hchange⟩
        · exact .tail (.single ⟨tx, hown, .inr (.inr ⟨ha, hc⟩)⟩)
            ⟨tx, hown, .inr (.inl ⟨hc, hb⟩)⟩
        · exact hchange a b ha hb
  · rw [Finset.mem_singleton.mp ha, Finset.mem_singleton.mp hb]

theorem connected_iff (hcomplete : Complete genv wallet) (a b : CTxDestination) :
    Relation.ReflTransGen (Merging.Linked (genv.order.sort (allCollected genv wallet))) a b ↔
      Relation.ReflTransGen (Related genv wallet) a b := by
  constructor
  · intro h
    induction h with
    | refl => exact .refl
    | tail _ hlinked ih => exact ih.trans (connected_of_linked hcomplete hlinked)
  · exact fun h => h.lift id fun _ _ hrelated => linked_of_related hrelated

theorem empty_not_mem (hcomplete : Complete genv wallet) :
    ∅ ∉ genv.order.sort (allCollected genv wallet) := by
  intro hmem
  rcases mem_allCollected.mp (mem_sorted.mp hmem) with ⟨tx, hown, hempty⟩ |
    ⟨entry, hentry, txout, hout, hmine, c, hc, hempty⟩
  · have hnone : ∀ a, ¬ (IsInput genv wallet tx a ∨ IsChangeOf genv tx a) := by
      intro a ha
      rw [← mem_groupingOf, ← hempty] at ha
      exact Finset.notMem_empty a ha
    rcases (hcomplete tx hown).2 with ⟨a, ha⟩ | ⟨⟨a, ha⟩, -⟩
    · exact hnone a (.inl ha)
    · exact hnone a (.inr ha)
  · exact Finset.singleton_ne_empty c hempty.symm

end components

/-- Exactly when the groupings are the connected components: the wallet has every output that an
own transaction spends, and such a transaction shows the address of an input, or else addresses of
change that are connected anyway. -/
theorem groupingsRight_iff (genv : GroupEnv) (wallet : Map Uint256 CWalletTx) :
    GroupingsRight genv wallet ↔ Complete genv wallet := by
  have hinv := Merging.inv_mergeAll (genv.order.sort (allCollected genv wallet))
  constructor
  · rintro ⟨groupings, hrun, hempty, -, hmentioned, hconnected⟩ tx hown
    obtain ⟨hall, rfl, -⟩ := (getAddressGroupings_eq_ok _ _).mp hrun
    refine ⟨hall tx hown, ?_⟩
    by_cases hinput : ∃ a, IsInput genv wallet tx a
    · exact .inl hinput
    · refine .inr ⟨?_, fun a b ha hb => ?_⟩
      · by_contra hchange
        refine hempty (hinv.empty_mem_result.mpr (mem_sorted.mpr (mem_allCollected.mpr
          (.inl ⟨tx, hown, (Finset.eq_empty_of_forall_notMem fun a ha => ?_).symm⟩))))
        rcases mem_groupingOf.mp ha with ha | ha
        · exact hinput ⟨a, ha⟩
        · exact hchange ⟨a, ha⟩
      · have ha' : Mentioned genv wallet a := .inl ⟨tx, hown, .inr ha⟩
        refine (hconnected a b ha').mp ((hinv.connected_iff ((mentioned_iff a).mpr ha')).mpr ?_)
        exact .single (linked_of_own hown (.inr ha) (.inr hb))
  · intro hcomplete
    refine ⟨_, (getAddressGroupings_eq_ok _ _).mpr ⟨fun tx hown => (hcomplete tx hown).1, rfl,
      rfl⟩, fun hmem => empty_not_mem hcomplete (hinv.empty_mem_result.mp hmem), ?_, ?_, ?_⟩
    · exact fun g hg g' hg' a ha ha' => hinv.disjoint hg hg' ha ha'
    · exact fun a => (hinv.mem_result_iff a).trans (mentioned_iff a)
    · exact fun a b ha => (hinv.connected_iff ((mentioned_iff a).mpr ha)).trans
        (connected_iff hcomplete a b)

section samples

/-- Every output is the wallet's, and none is change. -/
def ownEnv : GroupEnv := ⟨id, fun _ => true, fun _ => false, 0, ⟨id, fun _ => .rfl⟩⟩

def ownCoin : CTransaction := ⟨1, 0, [], [⟨coin, [0x51]⟩], 0⟩

/-- A transaction that spends `ownCoin` and an output of a transaction that is not there. -/
def jointTx : CTransaction :=
  ⟨1, 0, [⟨⟨1, 0⟩, [], uint32Max⟩, ⟨⟨7, 0⟩, [], uint32Max⟩], [⟨coin, [0x52]⟩], 0⟩

def jointWallet : Map Uint256 CWalletTx :=
  ((∅ : Map Uint256 CWalletTx).insert 1 (.ofTx ownCoin)).insert 2 (.ofTx jointTx)

/-- Whether a run has left the defined behaviour with an entry for `hash` in `mapWallet`. -/
def leaves {α : Type} (hash : Uint256) :
    EStateM.Result Thrown (Map Uint256 CWalletTx) α → Bool
  | .error (.undefined _) wallet => wallet.contains hash
  | _ => false

/-- A default transaction is inserted, and an output is read that it does not have. -/
theorem jointWallet_leaves : jointWallet.contains 7 = false ∧
    leaves 7 (getAddressGroupings ownEnv jointWallet) = true ∧
    ¬ GroupingsRight ownEnv jointWallet := by
  have hleaves : leaves 7 (getAddressGroupings ownEnv jointWallet) = true := by decide +kernel
  refine ⟨by decide +kernel, hleaves, ?_⟩
  rintro ⟨groupings, hrun, -⟩
  rw [hrun] at hleaves
  cases hleaves

end samples

end AddressGroupings

end NoLimitCoin
