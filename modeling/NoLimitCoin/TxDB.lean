import NoLimitCoin.Lib.WriteBatch

/-!
# The database handle `CTxDB`

`CTxDB` (`txdb-leveldb.h`, `txdb-leveldb.cpp`) is a handle on the shared LevelDB store `pdb`.
Between `TxnBegin` and `TxnCommit` it collects its writes in a batch; `Read` and `Exists` scan
that batch before they ask the store.  The handle is generic in its keys and values; LevelDB
itself has strings for both.

Results:

1. `scanBatch_eq`: the scanner of the source finds exactly the pending entry of the batch.
2. `read_eq_view`: `Read` answers from the store as it will be after the commit.
3. `keyExists_eq_view_iff`: `Exists` does so exactly when the batch does not delete a key that
   the store still has.
4. `transaction_agrees_iff`: what this means for whole transactions.
-/

namespace NoLimitCoin

variable {K V T : Type}

/-- `CBatchScanner`: what a scan has seen so far.  `foundValue` is the string behind the
pointer of the source, `none` while nothing has been stored there. -/
structure CBatchScanner (V : Type) where
  deleted : Bool
  foundValue : Option V
  foundEntry : Bool

namespace CBatchScanner

/-- The scanner `ScanBatch` starts with. -/
def start : CBatchScanner V := ⟨false, none, false⟩

variable [DecidableEq K]

/-- `CBatchScanner::Put` and `CBatchScanner::Delete`. -/
def visit (needle : K) (s : CBatchScanner V) : BatchOp K V → CBatchScanner V
  | .put key value =>
    if key = needle then { s with foundEntry := true, deleted := false, foundValue := some value }
    else s
  | .delete key => if key = needle then { s with foundEntry := true, deleted := true } else s

end CBatchScanner

/-- `CTxDB::ScanBatch`. -/
def scanBatch [DecidableEq K] (batch : List (BatchOp K V)) (key : K) : CBatchScanner V :=
  batch.foldl (CBatchScanner.visit key) CBatchScanner.start

/-- The scan finds an entry exactly when one is pending, reports a deletion exactly when the
last entry is one, and otherwise holds the value of that entry. -/
theorem scanBatch_eq [DecidableEq K] (batch : List (BatchOp K V)) (key : K) :
    (pending batch key = none ∧ scanBatch batch key = CBatchScanner.start) ∨
    (pending batch key = some none ∧
      (scanBatch batch key).foundEntry = true ∧ (scanBatch batch key).deleted = true) ∨
    ∃ v, pending batch key = some (some v) ∧ scanBatch batch key = ⟨false, some v, true⟩ := by
  induction batch using List.reverseRecOn with
  | nil => exact .inl ⟨rfl, rfl⟩
  | append_singleton batch op ih =>
    have hscan : scanBatch (batch ++ [op]) key
        = CBatchScanner.visit key (scanBatch batch key) op := by simp [scanBatch]
    rw [hscan, pending_concat]
    by_cases hkey : op.key = key
    · cases op with
      | put k v =>
        obtain rfl : k = key := hkey
        exact .inr (.inr ⟨v, by simp [BatchOp.key, BatchOp.value?], by simp [CBatchScanner.visit]⟩)
      | delete k =>
        obtain rfl : k = key := hkey
        exact .inr (.inl ⟨by simp [BatchOp.key, BatchOp.value?], by simp [CBatchScanner.visit]⟩)
    · have hvisit : CBatchScanner.visit key (scanBatch batch key) op = scanBatch batch key := by
        cases op with
        | put k v => exact if_neg hkey
        | delete k => exact if_neg hkey
      rw [hvisit, if_neg hkey]
      exact ih

/-- `CTxDB`: the store and the batch of the transaction in progress, if there is one. -/
structure CTxDB (K V : Type) [Ord K] where
  pdb : Map K V
  activeBatch : Option (List (BatchOp K V))

namespace CTxDB

variable [Ord K] [Std.TransOrd K]

section reads

variable [DecidableEq K]

/-- The string `CTxDB::Read` goes on to unserialize. -/
def readValue (txdb : CTxDB K V) (key : K) : Option V :=
  match txdb.activeBatch with
  | some batch =>
    let scanner := scanBatch batch key
    if scanner.deleted then none
    else if scanner.foundEntry then scanner.foundValue
    else txdb.pdb[key]?
  | none => txdb.pdb[key]?

/-- `CTxDB::Read`: `none` stands for the result `false`. -/
def read (unserialize : V → Option T) (txdb : CTxDB K V) (key : K) : Option T :=
  (txdb.readValue key).bind unserialize

/-- `CTxDB::Exists`. -/
def keyExists (txdb : CTxDB K V) (key : K) : Bool :=
  match txdb.activeBatch with
  | some batch =>
    let scanner := scanBatch batch key
    if scanner.foundEntry && !scanner.deleted then true
    else txdb.pdb[key]?.isSome
  | none => txdb.pdb[key]?.isSome

end reads

/-- A change goes into the open batch, or straight to the store.  `status` is what LevelDB
answers to a direct change; a change of the batch cannot fail. -/
def change (txdb : CTxDB K V) (op : BatchOp K V) (status : Bool) : Bool × CTxDB K V :=
  match txdb.activeBatch with
  | some batch => (true, { txdb with activeBatch := some (batch ++ [op]) })
  | none => (status, { txdb with pdb := if status then op.apply txdb.pdb else txdb.pdb })

/-- `CTxDB::Write`. -/
def write (txdb : CTxDB K V) (key : K) (value : V) (status : Bool) : Bool × CTxDB K V :=
  txdb.change (.put key value) status

/-- `CTxDB::Erase`. -/
def erase (txdb : CTxDB K V) (key : K) (status : Bool) : Bool × CTxDB K V :=
  txdb.change (.delete key) status

/-- `CTxDB::TxnBegin`: `none` when the assertion that no transaction is open fails. -/
def txnBegin (txdb : CTxDB K V) : Option (CTxDB K V) :=
  match txdb.activeBatch with
  | some _ => none
  | none => some { txdb with activeBatch := some [] }

/-- `CTxDB::TxnCommit`: LevelDB writes the batch as a whole or, where `status` is false, not
at all.  `none` when the assertion that a transaction is open fails. -/
def txnCommit (txdb : CTxDB K V) (status : Bool) : Option (Bool × CTxDB K V) :=
  match txdb.activeBatch with
  | some batch =>
    some (status, ⟨if status then applyBatch txdb.pdb batch else txdb.pdb, none⟩)
  | none => none

/-- `CTxDB::TxnAbort`. -/
def txnAbort (txdb : CTxDB K V) : CTxDB K V :=
  { txdb with activeBatch := none }

/-- The store as the open transaction will leave it. -/
def view (txdb : CTxDB K V) : Map K V :=
  applyBatch txdb.pdb (txdb.activeBatch.getD [])

@[simp] theorem view_mk_none (m : Map K V) : (⟨m, none⟩ : CTxDB K V).view = m := rfl

@[simp] theorem view_mk_some (m : Map K V) (batch : List (BatchOp K V)) :
    (⟨m, some batch⟩ : CTxDB K V).view = applyBatch m batch := rfl

theorem view_change (txdb : CTxDB K V) (op : BatchOp K V) (status : Bool)
    (h : (txdb.change op status).1 = true) :
    (txdb.change op status).2.view = op.apply txdb.view := by
  obtain ⟨pdb, batch⟩ := txdb
  cases batch with
  | none =>
    obtain rfl : status = true := h
    rfl
  | some batch => exact applyBatch_concat pdb batch op

section lawful

variable [DecidableEq K] [Std.LawfulEqOrd K]

/-- `Read` sees the store as the open transaction will leave it. -/
theorem readValue_eq_view (txdb : CTxDB K V) (key : K) : txdb.readValue key = txdb.view[key]? := by
  obtain ⟨pdb, batch⟩ := txdb
  cases batch with
  | none => rfl
  | some batch =>
    rw [view_mk_some, getElem?_applyBatch]
    rcases scanBatch_eq batch key with ⟨hp, hs⟩ | ⟨hp, hf, hd⟩ | ⟨v, hp, hs⟩
    · simp [readValue, hp, hs, CBatchScanner.start]
    · simp [readValue, hp, hd]
    · simp [readValue, hp, hs]

theorem read_eq_view (unserialize : V → Option T) (txdb : CTxDB K V) (key : K) :
    txdb.read unserialize key = txdb.view[key]?.bind unserialize := by
  rw [read, readValue_eq_view]

/-- Inside a transaction `Exists` falls through to the store when the batch ends in a deletion
of the key, so it answers from the store as the transaction will leave it exactly when the
store has no such key either. -/
theorem keyExists_eq_view_iff (m : Map K V) (batch : List (BatchOp K V)) (key : K) :
    (⟨m, some batch⟩ : CTxDB K V).keyExists key = (applyBatch m batch)[key]?.isSome ↔
      (pending batch key = some none → m[key]? = none) := by
  rw [getElem?_applyBatch]
  rcases scanBatch_eq batch key with ⟨hp, hs⟩ | ⟨hp, hf, hd⟩ | ⟨v, hp, hs⟩
  · simp [keyExists, hp, hs, CBatchScanner.start]
  · simp [keyExists, hp, hd, Map.contains_eq_false_iff]
  · simp [keyExists, hp, hs]

end lawful

end CTxDB

/-! ## Whole transactions -/

/-- A call made while a transaction is open. -/
inductive TxnCall (K V : Type) where
  | write (key : K) (value : V)
  | erase (key : K)
  | read (key : K)
  | keyExists (key : K)
deriving Repr, DecidableEq

/-- What the call returns. -/
inductive TxnAnswer (T : Type) where
  | done (ok : Bool)
  | record (value : Option T)
  | present (found : Bool)
deriving Repr, DecidableEq

namespace TxnCall

/-- The change a call asks for. -/
def change? : TxnCall K V → Option (BatchOp K V)
  | write key value => some (.put key value)
  | erase key => some (.delete key)
  | read _ => none
  | keyExists _ => none

variable [Ord K] [Std.TransOrd K] [DecidableEq K]

/-- One call on the handle.  The status handed to `write` and `erase` is never asked for while
the batch is open. -/
def exec (unserialize : V → Option T) (txdb : CTxDB K V) :
    TxnCall K V → TxnAnswer T × CTxDB K V
  | write key value => ((txdb.write key value false).map .done id)
  | erase key => ((txdb.erase key false).map .done id)
  | read key => (.record (txdb.read unserialize key), txdb)
  | keyExists key => (.present (txdb.keyExists key), txdb)

/-- A run of calls: the answers in order, and the handle afterwards. -/
def execAll (unserialize : V → Option T) (txdb : CTxDB K V) :
    List (TxnCall K V) → List (TxnAnswer T) × CTxDB K V
  | [] => ([], txdb)
  | call :: calls =>
    let (answer, txdb') := call.exec unserialize txdb
    let (answers, txdb'') := execAll unserialize txdb' calls
    (answer :: answers, txdb'')

/-- The same call on a store that applies every change at once: the intended meaning. -/
def execDirect (unserialize : V → Option T) (m : Map K V) : TxnCall K V → TxnAnswer T × Map K V
  | write key value => (.done true, m.insert key value)
  | erase key => (.done true, m.erase key)
  | read key => (.record (m[key]?.bind unserialize), m)
  | keyExists key => (.present m[key]?.isSome, m)

/-- A run of calls on such a store. -/
def execDirectAll (unserialize : V → Option T) (m : Map K V) :
    List (TxnCall K V) → List (TxnAnswer T) × Map K V
  | [] => ([], m)
  | call :: calls =>
    let (answer, m') := call.execDirect unserialize m
    let (answers, m'') := execDirectAll unserialize m' calls
    (answer :: answers, m'')

end TxnCall

/-- The changes a run of calls asks for, in order. -/
def changes (calls : List (TxnCall K V)) : List (BatchOp K V) :=
  calls.filterMap TxnCall.change?

section changes

@[simp] theorem changes_nil : changes ([] : List (TxnCall K V)) = [] := rfl

@[simp] theorem changes_write (key : K) (value : V) (calls : List (TxnCall K V)) :
    changes (.write key value :: calls) = .put key value :: changes calls := rfl

@[simp] theorem changes_erase (key : K) (calls : List (TxnCall K V)) :
    changes (.erase key :: calls) = .delete key :: changes calls := rfl

@[simp] theorem changes_read (key : K) (calls : List (TxnCall K V)) :
    changes (.read key :: calls) = changes calls := rfl

@[simp] theorem changes_keyExists (key : K) (calls : List (TxnCall K V)) :
    changes (.keyExists key :: calls) = changes calls := rfl

end changes

section transaction

variable [Ord K] [Std.TransOrd K] [DecidableEq K]

/-- The handle inside the transaction behaves as the store would if every change were applied
at once: the same answers, the same store after a commit that LevelDB carries out, and the
store of `TxnBegin` after a commit that fails and after `TxnAbort`. -/
def TransactionAgrees (unserialize : V → Option T) (m : Map K V) (calls : List (TxnCall K V)) :
    Prop :=
  ∃ txdb, (⟨m, none⟩ : CTxDB K V).txnBegin = some txdb ∧
    (TxnCall.execAll unserialize txdb calls).1 = (TxnCall.execDirectAll unserialize m calls).1 ∧
    (TxnCall.execAll unserialize txdb calls).2.txnCommit true
      = some (true, ⟨(TxnCall.execDirectAll unserialize m calls).2, none⟩) ∧
    (TxnCall.execAll unserialize txdb calls).2.txnCommit false = some (false, ⟨m, none⟩) ∧
    (TxnCall.execAll unserialize txdb calls).2.txnAbort = ⟨m, none⟩

/-- No `Exists` asks for a key that the transaction has just deleted and the store still has. -/
def NoExistsAfterErase (m : Map K V) (calls : List (TxnCall K V)) : Prop :=
  ∀ before key after, calls = before ++ .keyExists key :: after →
    pending (changes before) key = some none → m[key]? = none

theorem TxnCall.execAll_handle (unserialize : V → Option T) (m : Map K V)
    (batch : List (BatchOp K V)) (calls : List (TxnCall K V)) :
    (TxnCall.execAll unserialize ⟨m, some batch⟩ calls).2 = ⟨m, some (batch ++ changes calls)⟩ := by
  induction calls generalizing batch with
  | nil => simp [TxnCall.execAll]
  | cons call calls ih =>
    cases call with
    | write key value =>
      have h := ih (batch ++ [.put key value])
      simpa [TxnCall.execAll, TxnCall.exec, CTxDB.write, CTxDB.change] using h
    | erase key =>
      have h := ih (batch ++ [.delete key])
      simpa [TxnCall.execAll, TxnCall.exec, CTxDB.erase, CTxDB.change] using h
    | read key => exact ih batch
    | keyExists key => exact ih batch

omit [DecidableEq K] in
theorem TxnCall.execDirectAll_store (unserialize : V → Option T) (m : Map K V)
    (calls : List (TxnCall K V)) :
    (TxnCall.execDirectAll unserialize m calls).2 = applyBatch m (changes calls) := by
  induction calls generalizing m with
  | nil => rfl
  | cons call calls ih => cases call <;> exact ih _

omit [Ord K] [Std.TransOrd K] [DecidableEq K] in
/-- A statement about every `Exists` of a run, split into its head and its tail. -/
theorem forall_keyExists_cons (call : TxnCall K V) (calls : List (TxnCall K V))
    (P : List (TxnCall K V) → K → Prop) :
    (∀ before key after, call :: calls = before ++ .keyExists key :: after → P before key) ↔
      (∀ key, call = .keyExists key → P [] key) ∧
      ∀ before key after, calls = before ++ .keyExists key :: after → P (call :: before) key := by
  constructor
  · intro h
    refine ⟨?_, ?_⟩
    · rintro key rfl
      exact h [] key calls rfl
    · rintro before key after rfl
      exact h (call :: before) key after rfl
  · rintro ⟨hhead, htail⟩ before key after hsplit
    cases before with
    | nil =>
      obtain ⟨rfl, -⟩ := List.cons.inj hsplit
      exact hhead key rfl
    | cons first before =>
      obtain ⟨rfl, hrest⟩ := List.cons.inj hsplit
      exact htail before key after hrest

/-- Answers agree call by call: only `Exists` can disagree, and only after a deletion. -/
theorem TxnCall.execAll_answers_iff [Std.LawfulEqOrd K] (unserialize : V → Option T) (m : Map K V)
    (batch : List (BatchOp K V)) (calls : List (TxnCall K V)) :
    (TxnCall.execAll unserialize ⟨m, some batch⟩ calls).1
        = (TxnCall.execDirectAll unserialize (applyBatch m batch) calls).1 ↔
      ∀ before key after, calls = before ++ .keyExists key :: after →
        pending (batch ++ changes before) key = some none → m[key]? = none := by
  induction calls generalizing batch with
  | nil => simp [TxnCall.execAll, TxnCall.execDirectAll]
  | cons call calls ih =>
    rw [forall_keyExists_cons call calls
      (fun before key => pending (batch ++ changes before) key = some none → m[key]? = none)]
    cases call with
    | write key value =>
      have h := ih (batch ++ [.put key value])
      simpa [TxnCall.execAll, TxnCall.exec, TxnCall.execDirectAll, TxnCall.execDirect,
        CTxDB.write, CTxDB.change, BatchOp.apply] using h
    | erase key =>
      have h := ih (batch ++ [.delete key])
      simpa [TxnCall.execAll, TxnCall.exec, TxnCall.execDirectAll, TxnCall.execDirect,
        CTxDB.erase, CTxDB.change, BatchOp.apply] using h
    | read key =>
      have hread := CTxDB.read_eq_view unserialize ⟨m, some batch⟩ key
      have h := ih batch
      simpa [TxnCall.execAll, TxnCall.exec, TxnCall.execDirectAll, TxnCall.execDirect,
        hread] using h
    | keyExists key =>
      have hexists := CTxDB.keyExists_eq_view_iff m batch key
      have h := ih batch
      simp only [TxnCall.execAll, TxnCall.exec, TxnCall.execDirectAll, TxnCall.execDirect,
        List.cons.injEq, TxnAnswer.present.injEq, hexists, h]
      simp

/-- A transaction agrees with the committed store exactly when no `Exists` in it asks for a key
that it has just deleted and that the store still has.  `Read`, which looks at the deletion
flag, needs no such condition. -/
theorem transaction_agrees_iff [Std.LawfulEqOrd K] (unserialize : V → Option T) (m : Map K V)
    (calls : List (TxnCall K V)) :
    TransactionAgrees unserialize m calls ↔ NoExistsAfterErase m calls := by
  have hanswers := TxnCall.execAll_answers_iff unserialize m [] calls
  have hhandle := TxnCall.execAll_handle unserialize m [] calls
  have hstore := TxnCall.execDirectAll_store unserialize m calls
  constructor
  · rintro ⟨txdb, hbegin, hsame, -⟩
    obtain rfl : ⟨m, some []⟩ = txdb := Option.some.inj hbegin
    exact hanswers.mp hsame
  · intro hno
    refine ⟨⟨m, some []⟩, rfl, hanswers.mpr hno, ?_, ?_, ?_⟩
    · rw [hhandle, hstore]; rfl
    · rw [hhandle]; rfl
    · rw [hhandle]; rfl

end transaction

/-- A store with one record. -/
def oneRecord : Map Nat Nat := (∅ : Map Nat Nat).insert 7 1

/-- After `Erase`, `Exists` still finds the record of the store where `Read` finds none. -/
theorem not_transaction_agrees :
    ¬ TransactionAgrees some oneRecord [.erase 7, .keyExists 7, .read 7] := by
  rintro ⟨txdb, hbegin, hsame, -⟩
  obtain rfl : ⟨oneRecord, some []⟩ = txdb := Option.some.inj hbegin
  exact absurd hsame (by decide)

/-- Writing the key again after the `Erase` puts `Exists` right. -/
theorem transaction_agrees_rewrite :
    TransactionAgrees some oneRecord [.erase 7, .write 7 2, .keyExists 7] := by
  refine (transaction_agrees_iff some oneRecord _).mpr ?_
  intro before key after hsplit hdeleted
  match before with
  | [] => simp at hsplit
  | [_] => simp at hsplit
  | [_, _] =>
    simp only [List.cons_append, List.nil_append, List.cons.injEq, TxnCall.keyExists.injEq] at hsplit
    obtain ⟨rfl, rfl, rfl, -⟩ := hsplit
    exact absurd hdeleted (by decide)
  | _ :: _ :: _ :: _ => simp at hsplit

end NoLimitCoin
