import NoLimitCoin.Lib.Tally
import NoLimitCoin.ListTransactions

/-!
# The accounting entries of an account

`ListAccountCreditDebit` of `walletdb.cpp` goes with a cursor over a range of keys: from the first
key of the account on, until the account of an entry is another one.  The keys of an account are
next to each other, for what is written before its name is the length of the name.

Results:
1. `between_prefix`: between two texts that begin alike all texts do.
2. `listed_eq`: exactly the entries of the account are listed.
3. `listed_all`: all entries are listed for the name that stands for all accounts.
-/

namespace NoLimitCoin

open KeyPool (Thrown)

/-! ## The order of texts -/

theorem compare_append_left (start s t : List UInt8) :
    compare (start ++ s) (start ++ t) = compare s t := by
  induction start with
  | nil => rfl
  | cons b start ih =>
    have hbyte : compare b b = .eq := Std.ReflCmp.compare_self
    rw [List.cons_append, List.cons_append, List.compare_eq_compareLex, List.compareLex_cons_cons,
      hbyte]
    exact ih

theorem between_prefix {start s t text : List UInt8}
    (hfrom : (compare text (start ++ s)).isLT = false) (hto : compare text (start ++ t) = .lt) :
    ∃ rest, text = start ++ rest := by
  induction start generalizing text with
  | nil => exact ⟨text, rfl⟩
  | cons b start ih =>
    cases text with
    | nil => cases hfrom
    | cons c text =>
      rw [List.cons_append, List.compare_eq_compareLex, List.compareLex_cons_cons] at hfrom hto
      cases hbyte : compare c b with
      | lt =>
        rw [hbyte] at hfrom
        cases hfrom
      | gt =>
        rw [hbyte] at hto
        cases hto
      | eq =>
        rw [hbyte] at hfrom hto
        obtain ⟨rest, rfl⟩ := ih hfrom hto
        rw [Std.LawfulEqCmp.eq_of_compare hbyte]
        exact ⟨rest, rfl⟩

/-! ## Ranges of a sorted list -/

section ranges

variable {α : Type} {r : α → α → Prop} {below taken : α → Bool} {l : List α}

theorem takeWhile_eq_filter (hl : l.Pairwise r)
    (hdown : ∀ a ∈ l, ∀ b ∈ l, r a b → taken b = true → taken a = true) :
    l.takeWhile taken = l.filter taken := by
  induction l with
  | nil => rfl
  | cons a l ih =>
    rw [List.pairwise_cons] at hl
    have hrest := ih hl.2 fun b hb c hc =>
      hdown b (List.mem_cons_of_mem _ hb) c (List.mem_cons_of_mem _ hc)
    by_cases ha : taken a = true
    · rw [List.takeWhile_cons_of_pos ha, List.filter_cons_of_pos ha, hrest]
    · -- what is behind is not taken either
      have hnone : l.filter taken = [] := List.filter_eq_nil_iff.mpr fun b hb hbt =>
        ha (hdown a List.mem_cons_self b (List.mem_cons_of_mem _ hb) (hl.1 b hb) hbt)
      rw [List.takeWhile_cons_of_neg ha, List.filter_cons_of_neg ha, hnone]

/-- What is between a border and the end of a range of a sorted list. -/
theorem takeWhile_dropWhile (hl : l.Pairwise r)
    (hfrom : ∀ a ∈ l, taken a = true → below a = false)
    (hup : ∀ a ∈ l, ∀ b ∈ l, r a b → below a = false → below b = false)
    (hdown : ∀ a ∈ l, ∀ b ∈ l, r a b → below a = false → taken b = true → taken a = true) :
    (l.dropWhile below).takeWhile taken = l.filter taken := by
  induction l with
  | nil => rfl
  | cons a l ih =>
    have htail := List.pairwise_cons.mp hl
    by_cases ha : below a = true
    · have hnot : ¬ taken a = true := fun htaken => by
        rw [hfrom a List.mem_cons_self htaken] at ha
        cases ha
      rw [List.dropWhile_cons_of_pos ha, List.filter_cons_of_neg hnot]
      exact ih htail.2 (fun b hb => hfrom b (List.mem_cons_of_mem _ hb))
        (fun b hb c hc => hup b (List.mem_cons_of_mem _ hb) c (List.mem_cons_of_mem _ hc))
        fun b hb c hc => hdown b (List.mem_cons_of_mem _ hb) c (List.mem_cons_of_mem _ hc)
    · have ha' : below a = false := by simpa using ha
      rw [List.dropWhile_cons_of_neg ha]
      refine takeWhile_eq_filter hl fun b hb c hc hbc => hdown b hb c hc hbc ?_
      rcases List.mem_cons.mp hb with rfl | hb'
      · exact ha'
      · exact hup a List.mem_cons_self b hb (htail.1 b hb') ha'

end ranges

/-! ## The entries that are listed -/

namespace AcentryRecords

/-- The names of the accounts can be written with their lengths. -/
def Sized (db : AcentryRecords) : Prop :=
  ∀ (key : List UInt8) (acentry : CAccountingEntry), db.records[key]? = some acentry →
    acentry.strAccount.length < 256 ^ 8

variable {db : AcentryRecords} {strAccount : AccountName}

theorem sized_empty : Sized .empty := by
  intro key acentry h
  cases (Map.getElem?_empty key).symm.trans h

theorem Sized.of_mem (h : db.Sized) {acentry : CAccountingEntry} (hmem : acentry ∈ db.entries) :
    acentry.strAccount.length < 256 ^ 8 :=
  h _ acentry ((db.mem_entries acentry).mp hmem)

/-- An account has its own range of keys. -/
theorem account_of_key {strAccount other : AccountName} {nEntryNo : Nat} {rest : List UInt8}
    (ha : strAccount.length < 256 ^ 8) (hb : other.length < 256 ^ 8)
    (h : acentryKey other nEntryNo = serializeBytes strAccount ++ rest) : other = strAccount :=
  (prefixFree_serializeBytes _ _ hb ha _ _ h).1

theorem setRange_eq (db : AcentryRecords) (key : List UInt8) :
    db.setRange key = db.entries.dropWhile fun acentry => (compare acentry.key key).isLT := by
  have hkeyed : ∀ record ∈ db.records.toList, record.2.key = record.1 := fun record hmem =>
    db.keyed _ _ ((Map.mem_toList _ _ _).mp hmem)
  unfold setRange entries
  generalize db.records.toList = records at hkeyed
  induction records with
  | nil => rfl
  | cons record records ih =>
    have hkey := hkeyed record List.mem_cons_self
    rw [List.map_cons, List.dropWhile_cons, List.dropWhile_cons, hkey]
    split
    · exact ih fun other hmem => hkeyed other (List.mem_cons_of_mem _ hmem)
    · rfl

theorem range_eq (hsized : db.Sized) : (db.setRange (acentryKey strAccount 0)).takeWhile
      (fun acentry => decide (acentry.strAccount = strAccount)) =
    db.entries.filter fun acentry => decide (acentry.strAccount = strAccount) := by
  rw [setRange_eq]
  refine takeWhile_dropWhile db.pairwise_entries ?_ ?_ ?_
  · intro a _ ha
    rw [CAccountingEntry.key, of_decide_eq_true ha, acentryKey, acentryKey, compare_append_left]
    exact leBytes_zero_min 8 a.nEntryNo
  · intro a _ b _ hab hfrom
    by_contra hb
    have hlt : compare b.key (acentryKey strAccount 0) = .lt := by simpa using hb
    rw [Std.TransCmp.lt_trans hab hlt] at hfrom
    cases hfrom
  · intro a ha b hb hab hfrom htaken
    have hname := of_decide_eq_true htaken
    have hlen : strAccount.length < 256 ^ 8 := hname ▸ hsized.of_mem hb
    rw [CAccountingEntry.key, CAccountingEntry.key, hname] at hab
    obtain ⟨rest, hrest⟩ := between_prefix hfrom hab
    exact decide_eq_true (account_of_key hlen (hsized.of_mem ha) hrest)

end AcentryRecords

variable {dbs : DbStatus} {db : AcentryRecords} {listed : List CAccountingEntry}

/-- The entries of the account are listed, and no others. -/
theorem listed_eq (hsized : db.Sized) {strAccount : AccountName} (hone : strAccount ≠ allAccounts)
    (h : listAccountCreditDebit dbs db strAccount = .ok listed) :
    listed = db.entries.filter fun acentry => decide (acentry.strAccount = strAccount) := by
  have hall : (strAccount == "*".toUTF8.toList) = false := beq_eq_false_iff_ne.mpr hone
  unfold listAccountCreditDebit at h
  dsimp only at h
  rw [hall] at h
  split at h
  · cases h
  rw [readEntries_eq h, if_neg Bool.false_ne_true, ← db.range_eq hsized]
  rfl

theorem listed_all (h : listAccountCreditDebit dbs db allAccounts = .ok listed) :
    listed = db.entries := by
  have hall : (allAccounts == "*".toUTF8.toList) = true := beq_self_eq_true _
  unfold listAccountCreditDebit at h
  dsimp only at h
  rw [hall] at h
  split at h
  · cases h
  rw [readEntries_eq h, if_pos rfl, db.setRange_first]
  exact List.takeWhile_eq_self_iff.mpr fun _ _ => rfl

theorem readEntries_good (fAllAccounts : Bool) (strAccount : AccountName) (n : Nat)
    (acentries : List CAccountingEntry) :
    ∃ listed, readEntries goodDbs fAllAccounts strAccount n acentries = .ok listed := by
  induction acentries generalizing n with
  | nil =>
    unfold readEntries
    exact ⟨[], rfl⟩
  | cons acentry acentries ih =>
    obtain ⟨listed, hlisted⟩ := ih (n + 1)
    have hread : goodDbs.readAtCursor n = true := rfl
    unfold readEntries
    simp only [hread, Bool.not_true, Bool.false_eq_true, if_false]
    split
    · exact ⟨[], rfl⟩
    · rw [hlisted]
      exact ⟨acentry :: listed, rfl⟩

/-- A database that does not fail lists the entries of any account. -/
theorem listed_good (db : AcentryRecords) (strAccount : AccountName) :
    ∃ listed, listAccountCreditDebit goodDbs db strAccount = .ok listed := by
  unfold listAccountCreditDebit
  exact readEntries_good _ _ _ _

end NoLimitCoin
