import NoLimitCoin.Lib.Map

/-!
# Locked pages

`LockedPageManagerBase` of `allocators.h` keeps a page locked while some range of memory on it is
in use.  It counts for each page the ranges that touch it, and calls the `Locker` when the first
one comes and when the last one goes.

Results:
1. `lockPage_spec`, `unlockPage_spec`: one page.
2. `forPages_spec`, `overRange_spec`: the pages of a range, unless it reaches the last page of the
   address space.
3. `forPages_last`, `overRange_ok`: a range that does is never done with.
4. `pagesExact_iff`: when the counts are those of the ranges in use.
-/

namespace NoLimitCoin

/-- A call of the `Locker`. -/
inductive LockerCall (bits : Nat) where
  | lock (addr len : BitVec bits)
  | unlock (addr len : BitVec bits)

def LockerCall.addr {bits : Nat} : LockerCall bits → BitVec bits
  | .lock addr _ => addr
  | .unlock addr _ => addr

/-- `LockedPageManagerBase` where `size_t` has `bits` bits, with the calls of its `Locker`, the last
one first. -/
structure LockedPageManager (bits : Nat) where
  pageSize : BitVec bits
  pageMask : BitVec bits
  histogram : Map (BitVec bits) Int
  locker : List (LockerCall bits)

/-- Why a call does not return: the `assert`, or an `int` that overflows. -/
inductive LockFault where
  | assert
  | overflow

/-- A range of memory, the arguments of a call. -/
structure PageRange (bits : Nat) where
  p : BitVec bits
  size : BitVec bits
deriving DecidableEq

namespace LockedPageManager

variable {bits : Nat}

/-! ## The code -/

/-- The constructor, for a page size that passes its `assert`. -/
def new (pageSize : BitVec bits) : LockedPageManager bits :=
  ⟨pageSize, ~~~(pageSize - 1), ∅, []⟩

/-- `it->second += d`, for an `int`. -/
def addCount (n d : Int) : Except LockFault Int :=
  if -2 ^ 31 ≤ n + d ∧ n + d < 2 ^ 31 then .ok (n + d) else .error .overflow

/-- What `LockRange` does with a page. -/
def lockPage (s : LockedPageManager bits) (page : BitVec bits) :
    Except LockFault (LockedPageManager bits) :=
  match s.histogram[page]? with
  | none => .ok { s with
      locker := .lock page s.pageSize :: s.locker
      histogram := s.histogram.insert page 1 }
  | some n => (addCount n 1).map fun n => { s with histogram := s.histogram.insert page n }

/-- What `UnlockRange` does with a page. -/
def unlockPage (s : LockedPageManager bits) (page : BitVec bits) :
    Except LockFault (LockedPageManager bits) :=
  match s.histogram[page]? with
  | none => .error .assert
  | some n => (addCount n (-1)).map fun n =>
    if n = 0 then { s with
      locker := .unlock page s.pageSize :: s.locker
      histogram := s.histogram.erase page }
    else { s with histogram := s.histogram.insert page n }

/-- The loop over the pages, from `page` to `endPage`.  Nothing is returned where the fuel does not
suffice. -/
def forPages (body : LockedPageManager bits → BitVec bits →
      Except LockFault (LockedPageManager bits)) (pageSize endPage : BitVec bits) :
    (fuel : Nat) → (page : BitVec bits) → LockedPageManager bits →
      Option (Except LockFault (LockedPageManager bits))
  | 0, _, _ => none
  | fuel + 1, page, s =>
    if page ≤ endPage then
      match body s page with
      | .ok s => forPages body pageSize endPage fuel (page + pageSize) s
      | .error e => some (.error e)
    else some (.ok s)

/-- What `LockRange` and `UnlockRange` have in common. -/
def overRange (body : LockedPageManager bits → BitVec bits →
      Except LockFault (LockedPageManager bits)) (fuel : Nat) (s : LockedPageManager bits)
    (r : PageRange bits) : Option (Except LockFault (LockedPageManager bits)) :=
  if r.size = 0 then some (.ok s)
  else
    let baseAddr := r.p
    let startPage := baseAddr &&& s.pageMask
    let endPage := (baseAddr + r.size - 1) &&& s.pageMask
    forPages body s.pageSize endPage fuel startPage s

def lockRange (fuel : Nat) (s : LockedPageManager bits) (r : PageRange bits) :
    Option (Except LockFault (LockedPageManager bits)) := overRange lockPage fuel s r

def unlockRange (fuel : Nat) (s : LockedPageManager bits) (r : PageRange bits) :
    Option (Except LockFault (LockedPageManager bits)) := overRange unlockPage fuel s r

end LockedPageManager

inductive PageCall (bits : Nat) where
  | lockRange (r : PageRange bits)
  | unlockRange (r : PageRange bits)

namespace LockedPageManager

variable {bits : Nat}

def call (fuel : Nat) (s : LockedPageManager bits) :
    PageCall bits → Option (Except LockFault (LockedPageManager bits))
  | .lockRange r => s.lockRange fuel r
  | .unlockRange r => s.unlockRange fuel r

/-- One call after the other. -/
def run (fuel : Nat) (s : LockedPageManager bits) :
    List (PageCall bits) → Option (Except LockFault (LockedPageManager bits))
  | [] => some (.ok s)
  | c :: calls =>
    match s.call fuel c with
    | some (.ok s) => run fuel s calls
    | result => result

end LockedPageManager

/-! ## Ranges in use -/

section ranges

variable {bits : Nat}

/-- A byte of the range is on the page. -/
def PageRange.touches (pageSize : BitVec bits) (r : PageRange bits) (page : BitVec bits) : Bool :=
  r.size ≠ 0 ∧ pageSize.toNat ∣ page.toNat ∧ r.p.toNat < page.toNat + pageSize.toNat ∧
    page.toNat < r.p.toNat + r.size.toNat

/-- How many of the ranges touch the page. -/
def users (pageSize : BitVec bits) (live : List (PageRange bits)) (page : BitVec bits) : Nat :=
  live.countP fun r => r.touches pageSize page

/-- The ranges in use after some calls. -/
def liveAfter : List (PageRange bits) → List (PageCall bits) → List (PageRange bits)
  | live, [] => live
  | live, .lockRange r :: calls => liveAfter (r :: live) calls
  | live, .unlockRange r :: calls => liveAfter (live.erase r) calls

/-- Ranges are within the address space, and only ranges in use are unlocked. -/
def Paired : List (PageRange bits) → List (PageCall bits) → Prop
  | _, [] => True
  | live, .lockRange r :: calls =>
    r.p.toNat + r.size.toNat ≤ 2 ^ bits ∧ Paired (r :: live) calls
  | live, .unlockRange r :: calls => r ∈ live ∧ Paired (live.erase r) calls

/-- No range reaches the last page of the address space, and no page has more users than an `int`
counts. -/
def Countable (pageSize : BitVec bits) : List (PageRange bits) → List (PageCall bits) → Prop
  | _, [] => True
  | live, .lockRange r :: calls =>
    (r.size ≠ 0 → r.p.toNat + r.size.toNat + pageSize.toNat ≤ 2 ^ bits) ∧
      (∀ page, r.touches pageSize page → users pageSize live page < 2 ^ 31 - 1) ∧
      Countable pageSize (r :: live) calls
  | live, .unlockRange r :: calls => Countable pageSize (live.erase r) calls

end ranges

/-- The calls for one page, the last one first: in turns, beginning with a `Lock`. -/
inductive InTurns {bits : Nat} (pageSize page : BitVec bits) : Bool → List (LockerCall bits) → Prop
  | nil : InTurns pageSize page false []
  | lock {calls : List (LockerCall bits)} (h : InTurns pageSize page false calls) :
      InTurns pageSize page true (.lock page pageSize :: calls)
  | unlock {calls : List (LockerCall bits)} (h : InTurns pageSize page true calls) :
      InTurns pageSize page false (.unlock page pageSize :: calls)

namespace LockedPageManager

variable {bits : Nat} {pageSize : BitVec bits} {s : LockedPageManager bits}

/-- The counts are those of `f`, and the pages with a count are the locked ones. -/
structure Counts (pageSize : BitVec bits) (f : BitVec bits → Nat) (s : LockedPageManager bits) :
    Prop where
  size_eq : s.pageSize = pageSize
  mask_eq : s.pageMask = ~~~(pageSize - 1)
  histogram : ∀ page, s.histogram[page]? = if f page = 0 then none else some (f page : Int)
  fits : ∀ page, f page < 2 ^ 31
  inTurns : ∀ page, InTurns pageSize page (decide (f page ≠ 0))
    (s.locker.filter fun c => c.addr = page)

/-- Every call returns, and after each of them the counts are those of the ranges in use. -/
def PagesExact (pageSize : BitVec bits) (calls : List (PageCall bits)) : Prop :=
  ∀ done, done <+: calls → ∃ s,
    (∀ fuel, 2 ^ bits ≤ fuel → run fuel (new pageSize) done = some (.ok s)) ∧
      Counts pageSize (users pageSize (liveAfter [] done)) s

theorem counts_new (pageSize : BitVec bits) : Counts pageSize (fun _ => 0) (new pageSize) where
  size_eq := rfl
  mask_eq := rfl
  histogram page := by simp [new]
  fits page := by decide
  inTurns page := .nil

/-! ## One page -/

/-- A body that changes the count of a page by `g` where `P` holds of it, and fails elsewhere. -/
def ChangesCount (pageSize : BitVec bits) (P : Nat → Prop) (g : Nat → Nat)
    (body : LockedPageManager bits → BitVec bits →
      Except LockFault (LockedPageManager bits)) : Prop :=
  ∀ f s page, Counts pageSize f s →
    (P (f page) → ∃ s', body s page = .ok s' ∧
      Counts pageSize (Function.update f page (g (f page))) s') ∧
    (¬ P (f page) → ∃ e, body s page = .error e)

section page

variable {f : BitVec bits → Nat}

/-- A step that only concerns one page. -/
theorem Counts.update (h : Counts pageSize f s) {page : BitVec bits} {n : Nat} (hn : n < 2 ^ 31)
    {s' : LockedPageManager bits} (hsize : s'.pageSize = s.pageSize)
    (hmask : s'.pageMask = s.pageMask)
    (hhistogram : ∀ q, s'.histogram[q]? =
      if page = q then if n = 0 then none else some (n : Int) else s.histogram[q]?)
    (hother : ∀ q, page ≠ q →
      (s'.locker.filter fun c => c.addr = q) = s.locker.filter fun c => c.addr = q)
    (hturns : InTurns pageSize page (decide (n ≠ 0)) (s'.locker.filter fun c => c.addr = page)) :
    Counts pageSize (Function.update f page n) s' where
  size_eq := hsize.trans h.size_eq
  mask_eq := hmask.trans h.mask_eq
  histogram q := by
    rw [hhistogram]
    by_cases hq : page = q
    · rw [if_pos hq, ← hq, Function.update_self]
    · rw [if_neg hq, Function.update_of_ne (Ne.symm hq), h.histogram]
  fits q := by
    by_cases hq : page = q
    · rwa [← hq, Function.update_self]
    · rw [Function.update_of_ne (Ne.symm hq)]
      exact h.fits q
  inTurns q := by
    by_cases hq : page = q
    · rwa [← hq, Function.update_self]
    · rw [Function.update_of_ne (Ne.symm hq), hother q hq]
      exact h.inTurns q

theorem lockPage_spec : ChangesCount pageSize (fun n => n < 2 ^ 31 - 1) (fun n => n + 1) lockPage := by
  intro f s page h
  have hcount := h.histogram page
  have hturns := h.inTurns page
  unfold lockPage
  by_cases hzero : f page = 0
  · rw [if_pos hzero] at hcount
    rw [hcount]
    rw [hzero] at hturns ⊢
    refine ⟨fun _ => ⟨_, rfl, h.update (by decide) rfl rfl ?_ ?_ ?_⟩, fun hfull => ?_⟩
    · intro q
      rw [Map.getElem?_insert]
      rfl
    · intro q hq
      exact List.filter_cons_of_neg (by simp [LockerCall.addr, hq])
    · rw [List.filter_cons_of_pos (by simp [LockerCall.addr]), h.size_eq]
      exact .lock hturns
    · exact absurd (by decide) hfull
  · rw [if_neg hzero] at hcount
    rw [hcount]
    dsimp only
    unfold addCount
    constructor
    · intro hroom
      rw [if_pos (by omega)]
      refine ⟨_, rfl, h.update (by omega) rfl rfl ?_ (fun _ _ => rfl) ?_⟩
      · intro q
        rw [Map.getElem?_insert, if_neg (Nat.succ_ne_zero _)]
        rfl
      · simpa [hzero] using hturns
    · intro hfull
      rw [if_neg (by omega)]
      exact ⟨_, rfl⟩

theorem unlockPage_spec : ChangesCount pageSize (fun n => 0 < n) (fun n => n - 1) unlockPage := by
  intro f s page h
  have hcount := h.histogram page
  have hturns := h.inTurns page
  have hfits := h.fits page
  unfold unlockPage
  by_cases hzero : f page = 0
  · rw [if_pos hzero] at hcount
    rw [hcount]
    exact ⟨fun hpos => absurd hzero hpos.ne', fun _ => ⟨_, rfl⟩⟩
  · refine ⟨fun hpos => ?_, fun hnone => absurd (Nat.pos_of_ne_zero hzero) hnone⟩
    rw [if_neg hzero] at hcount
    rw [hcount]
    dsimp only
    rw [decide_eq_true hzero] at hturns
    rw [addCount, if_pos (by omega)]
    refine ⟨_, rfl, ?_⟩
    dsimp only
    by_cases hlast : f page = 1
    · rw [if_pos (by omega), hlast]
      refine h.update (by decide) rfl rfl ?_ ?_ ?_
      · intro q
        rw [Map.getElem?_erase]
        rfl
      · intro q hq
        exact List.filter_cons_of_neg (by simp [LockerCall.addr, hq])
      · rw [List.filter_cons_of_pos (by simp [LockerCall.addr]), h.size_eq]
        exact .unlock hturns
    · rw [if_neg (by omega)]
      refine h.update (by omega) rfl rfl ?_ (fun _ _ => rfl) ?_
      · intro q
        have hne : f page - 1 ≠ 0 := by omega
        have hcast : ((f page - 1 : Nat) : Int) = f page + -1 := by omega
        rw [Map.getElem?_insert, if_neg hne, hcast]
      · rw [decide_eq_true (by omega)]
        exact hturns

end page

/-! ## The pages of a range -/

section loop

variable {f : BitVec bits → Nat}

variable {P : Nat → Prop} {g : Nat → Nat}
  {body : LockedPageManager bits → BitVec bits → Except LockFault (LockedPageManager bits)}

theorem toNat_next {page endPage : BitVec bits} (hend : endPage.toNat + pageSize.toNat < 2 ^ bits)
    (hle : page ≤ endPage) : (page + pageSize).toNat = page.toNat + pageSize.toNat := by
  rw [BitVec.le_def] at hle
  rw [BitVec.toNat_add]
  exact Nat.mod_eq_of_lt (by omega)

/-- A page behind another one is at least a page size behind it. -/
theorem add_le_of_lt {page q : BitVec bits} (hpage : pageSize.toNat ∣ page.toNat)
    (hq : pageSize.toNat ∣ q.toNat) (hlt : page.toNat < q.toNat) :
    page.toNat + pageSize.toNat ≤ q.toNat := by
  have hle := Nat.le_of_dvd (Nat.sub_pos_of_lt hlt) (Nat.dvd_sub hq hpage)
  omega

/-- The loop changes the counts of its pages. -/
theorem forPages_spec (hbody : ChangesCount pageSize P g body) {endPage : BitVec bits}
    (hend : endPage.toNat + pageSize.toNat < 2 ^ bits) {n : Nat} {page : BitVec bits}
    (hpage : pageSize.toNat ∣ page.toNat) (hn : 2 ^ bits ≤ page.toNat + n * pageSize.toNat)
    (h : Counts pageSize f s)
    (hP : ∀ q : BitVec bits, pageSize.toNat ∣ q.toNat → page ≤ q → q ≤ endPage → P (f q)) :
    ∃ s', (∀ fuel, n ≤ fuel → forPages body pageSize endPage fuel page s = some (.ok s')) ∧
      Counts pageSize (fun q => if pageSize.toNat ∣ q.toNat ∧ page ≤ q ∧ q ≤ endPage then
        g (f q) else f q) s' := by
  induction n generalizing page f s with
  | zero =>
    have hlt := page.isLt
    omega
  | succ n ih =>
    by_cases hle : page ≤ endPage
    · have hnext := toNat_next hend hle
      have hpos : 0 < pageSize.toNat := by
        by_contra hzero
        rw [Nat.eq_zero_of_not_pos hzero, Nat.mul_zero] at hn
        exact absurd page.isLt (Nat.not_lt.mpr hn)
      have hpage₁ : pageSize.toNat ∣ (page + pageSize).toNat := by
        rw [hnext]
        exact (Nat.dvd_add_right hpage).mpr (Nat.dvd_refl _)
      have hn₁ : 2 ^ bits ≤ (page + pageSize).toNat + n * pageSize.toNat := by
        rw [Nat.succ_mul] at hn
        omega
      obtain ⟨s₁, hstep, h₁⟩ := (hbody f s page h).1 (hP page hpage (BitVec.le_refl _) hle)
      -- the pages behind this one keep their counts
      have hsame : ∀ q, page + pageSize ≤ q →
          page ≤ q ∧ Function.update f page (g (f page)) q = f q := by
        intro q hq
        rw [BitVec.le_def, hnext] at hq
        refine ⟨BitVec.le_def.mpr (by omega), Function.update_of_ne ?_ _ _⟩
        rintro rfl
        omega
      obtain ⟨s', hloop, h'⟩ := ih hpage₁ hn₁ h₁ fun q hdvd hq hqe => by
        obtain ⟨hle, heq⟩ := hsame q hq
        rw [heq]
        exact hP q hdvd hle hqe
      refine ⟨s', fun fuel hfuel => ?_, ?_⟩
      · cases fuel with
        | zero => omega
        | succ fuel =>
          rw [forPages, if_pos hle, hstep]
          exact hloop fuel (Nat.le_of_succ_le_succ hfuel)
      · refine (congrArg (Counts pageSize · s') (funext fun q => ?_)).mpr h'
        by_cases hq : q = page
        · have hlt : ¬ page + pageSize ≤ page := by
            rw [BitVec.le_def, hnext]
            omega
          rw [hq, if_pos ⟨hpage, BitVec.le_refl _, hle⟩, if_neg fun h => hlt h.2.1,
            Function.update_self]
        · have hiff : pageSize.toNat ∣ q.toNat ∧ page ≤ q ∧ q ≤ endPage ↔
              pageSize.toNat ∣ q.toNat ∧ page + pageSize ≤ q ∧ q ≤ endPage := by
            refine and_congr_right fun hdvd => and_congr_left fun _ => ⟨fun hle => ?_, fun hle => ?_⟩
            · have hne : page.toNat ≠ q.toNat := fun h => hq (BitVec.eq_of_toNat_eq h.symm)
              rw [BitVec.le_def] at hle ⊢
              rw [hnext]
              exact add_le_of_lt hpage hdvd (Nat.lt_of_le_of_ne hle hne)
            · exact (hsame q hle).1
          rw [Function.update_of_ne hq]
          simp only [hiff]
    · refine ⟨s, fun fuel hfuel => ?_, ?_⟩
      · cases fuel with
        | zero => omega
        | succ fuel => rw [forPages, if_neg hle]
      · have hnone : ∀ q : BitVec bits, ¬ (pageSize.toNat ∣ q.toNat ∧ page ≤ q ∧ q ≤ endPage) :=
          fun q hq => hle (BitVec.le_trans hq.2.1 hq.2.2)
        simpa only [if_neg (hnone _)] using h

/-- Where the loop ends, every page could be changed. -/
theorem forPages_ok (hbody : ChangesCount pageSize P g body) {endPage : BitVec bits}
    (hend : endPage.toNat + pageSize.toNat < 2 ^ bits) {fuel : Nat} {page : BitVec bits}
    (hpage : pageSize.toNat ∣ page.toNat) (h : Counts pageSize f s) {s' : LockedPageManager bits}
    (hloop : forPages body pageSize endPage fuel page s = some (.ok s')) :
    ∀ q : BitVec bits, pageSize.toNat ∣ q.toNat → page ≤ q → q ≤ endPage → P (f q) := by
  induction fuel generalizing page f s with
  | zero => cases hloop
  | succ fuel ih =>
    intro q hdvd hq hqe
    have hle : page ≤ endPage := BitVec.le_trans hq hqe
    have hnext := toNat_next hend hle
    rw [forPages, if_pos hle] at hloop
    by_cases hP : P (f page)
    · obtain ⟨s₁, hstep, h₁⟩ := (hbody f s page h).1 hP
      rw [hstep] at hloop
      by_cases hne : q = page
      · rwa [hne]
      · have hpage₁ : pageSize.toNat ∣ (page + pageSize).toNat := by
          rw [hnext]
          exact (Nat.dvd_add_right hpage).mpr (Nat.dvd_refl _)
        have hlt : page.toNat < q.toNat :=
          Nat.lt_of_le_of_ne (BitVec.le_def.mp hq) fun h => hne (BitVec.eq_of_toNat_eq h.symm)
        have hq₁ : page + pageSize ≤ q := by
          rw [BitVec.le_def, hnext]
          exact add_le_of_lt hpage hdvd hlt
        have hPq := ih hpage₁ h₁ hloop q hdvd hq₁ hqe
        rwa [Function.update_of_ne hne] at hPq
    · obtain ⟨e, hstep⟩ := (hbody f s page h).2 hP
      rw [hstep] at hloop
      cases hloop

/-- A loop up to the last page goes over it. -/
theorem forPages_last (hdvd : pageSize.toNat ∣ 2 ^ bits) {endPage : BitVec bits}
    (hend : 2 ^ bits ≤ endPage.toNat + pageSize.toNat) (fuel : Nat) {page : BitVec bits}
    (hpage : pageSize.toNat ∣ page.toNat) (s s' : LockedPageManager bits) :
    forPages body pageSize endPage fuel page s ≠ some (.ok s') := by
  induction fuel generalizing page s with
  | zero => exact fun h => by cases h
  | succ fuel ih =>
    have hle : page ≤ endPage := by
      have hlt := Nat.le_of_dvd (Nat.sub_pos_of_lt page.isLt) (Nat.dvd_sub hdvd hpage)
      rw [BitVec.le_def]
      omega
    have hpage₁ : pageSize.toNat ∣ (page + pageSize).toNat := by
      rw [BitVec.toNat_add]
      exact (Nat.dvd_mod_iff hdvd).mpr ((Nat.dvd_add_right hpage).mpr (Nat.dvd_refl _))
    rw [forPages, if_pos hle]
    split
    · exact ih hpage₁ _
    · exact fun h => by cases h

/-- The mask takes an address to the start of its page. -/
theorem toNat_mask {k : Nat} (hk : k < bits) (hsize : pageSize.toNat = 2 ^ k) (x : BitVec bits) :
    (x &&& ~~~(pageSize - 1)).toNat = x.toNat / pageSize.toNat * pageSize.toNat := by
  have hlow : (pageSize - 1).toNat = 2 ^ k - 1 := by
    have hone : (1 : BitVec bits).toNat = 1 := BitVec.toNat_one (by omega)
    have hpos := Nat.two_pow_pos k
    have hle : (1 : BitVec bits) ≤ pageSize := by
      rw [BitVec.le_def]
      omega
    rw [BitVec.toNat_sub_of_le hle, hone, hsize]
  rw [hsize]
  refine Nat.eq_of_testBit_eq fun i => ?_
  have hbit : (pageSize - 1).getLsbD i = decide (i < k) := by
    rw [BitVec.getLsbD, hlow, Nat.testBit_two_pow_sub_one]
  rw [← Nat.shiftRight_eq_div_pow, ← Nat.shiftLeft_eq, Nat.testBit_shiftLeft,
    Nat.testBit_shiftRight, BitVec.testBit_toNat, BitVec.getLsbD_and, BitVec.getLsbD_not, hbit]
  by_cases hi : i < k
  · simp [hi]
  · rw [Nat.add_sub_of_le (Nat.le_of_not_lt hi), BitVec.testBit_toNat]
    by_cases hbits : i < bits
    · simp [hi, hbits, Nat.le_of_not_lt hi]
    · simp [BitVec.getLsbD_of_ge x i (Nat.le_of_not_lt hbits)]

section range

variable {k : Nat} {r : PageRange bits}

theorem size_pos (hne : r.size ≠ 0) : 0 < r.size.toNat :=
  Nat.pos_of_ne_zero fun hzero => hne (BitVec.eq_of_toNat_eq (hzero.trans rfl))

theorem toNat_lastByte (hne : r.size ≠ 0) (hfit : r.p.toNat + r.size.toNat ≤ 2 ^ bits) :
    (r.p + r.size - 1).toNat = r.p.toNat + r.size.toNat - 1 := by
  have hpos := size_pos hne
  have hlt := r.size.isLt
  have hbits : 0 < bits := by
    by_contra hzero
    have hsingle : 2 ^ bits = 1 := by rw [Nat.eq_zero_of_not_pos hzero, Nat.pow_zero]
    omega
  have hone : (1 : BitVec bits).toNat = 1 := BitVec.toNat_one hbits
  rw [BitVec.toNat_sub, BitVec.toNat_add, hone]
  -- the sum may be the size of the address space
  obtain hsum | hsum := Nat.lt_or_eq_of_le hfit
  · rw [Nat.mod_eq_of_lt hsum]
    have hcarry : 2 ^ bits - 1 + (r.p.toNat + r.size.toNat) =
        r.p.toNat + r.size.toNat - 1 + 2 ^ bits := by omega
    rw [hcarry, Nat.add_mod_right, Nat.mod_eq_of_lt (by omega)]
  · rw [hsum, Nat.mod_self, Nat.add_zero, Nat.mod_eq_of_lt (by omega)]

theorem touches_iff (hk : k < bits) (hsize : pageSize.toNat = 2 ^ k) (hne : r.size ≠ 0)
    (hfit : r.p.toNat + r.size.toNat ≤ 2 ^ bits) (page : BitVec bits) :
    r.touches pageSize page = true ↔ pageSize.toNat ∣ page.toNat ∧
      r.p &&& ~~~(pageSize - 1) ≤ page ∧ page ≤ (r.p + r.size - 1) &&& ~~~(pageSize - 1) := by
  have hpos : 0 < pageSize.toNat := hsize ▸ Nat.two_pow_pos k
  rw [PageRange.touches, decide_eq_true_iff, BitVec.le_def, BitVec.le_def,
    toNat_mask hk hsize, toNat_mask hk hsize, toNat_lastByte hne hfit]
  constructor
  · rintro ⟨-, ⟨c, hc⟩, hlow, hhigh⟩
    rw [hc] at hlow hhigh ⊢
    rw [Nat.mul_comm _ c] at hlow hhigh ⊢
    refine ⟨Nat.dvd_mul_left _ _, Nat.mul_le_mul_right _ ?_, Nat.mul_le_mul_right _ ?_⟩
    · rw [← Nat.succ_mul] at hlow
      exact Nat.lt_succ_iff.mp ((Nat.div_lt_iff_lt_mul hpos).mpr hlow)
    · exact (Nat.le_div_iff_mul_le hpos).mpr (by omega)
  · rintro ⟨⟨c, hc⟩, hlow, hhigh⟩
    have hfirst := Nat.lt_div_mul_add hpos (a := r.p.toNat)
    have hlast := Nat.div_mul_le_self (r.p.toNat + r.size.toNat - 1) pageSize.toNat
    have hbyte := size_pos hne
    exact ⟨hne, ⟨c, hc⟩, by omega, by omega⟩

/-- The last page of a range is below the last one of the address space. -/
theorem endPage_lt_iff (hk : k < bits) (hsize : pageSize.toNat = 2 ^ k) (hne : r.size ≠ 0)
    (hfit : r.p.toNat + r.size.toNat ≤ 2 ^ bits) :
    ((r.p + r.size - 1) &&& ~~~(pageSize - 1)).toNat + pageSize.toNat < 2 ^ bits ↔
      r.p.toNat + r.size.toNat + pageSize.toNat ≤ 2 ^ bits := by
  have hpos : 0 < pageSize.toNat := hsize ▸ Nat.two_pow_pos k
  have hbyte := size_pos hne
  obtain ⟨pages, hpages⟩ : pageSize.toNat ∣ 2 ^ bits := hsize ▸ Nat.pow_dvd_pow 2 hk.le
  have hlast := Nat.lt_div_mul_add hpos (a := r.p.toNat + r.size.toNat - 1)
  have hfirst := Nat.div_mul_le_self (r.p.toNat + r.size.toNat - 1) pageSize.toNat
  rw [toNat_mask hk hsize, toNat_lastByte hne hfit, hpages]
  generalize (r.p.toNat + r.size.toNat - 1) / pageSize.toNat = page at hlast hfirst ⊢
  constructor
  · intro h
    rw [← Nat.succ_mul, Nat.mul_comm _ pages] at h
    have hroom := Nat.mul_le_mul_right pageSize.toNat (Nat.lt_of_mul_lt_mul_right h)
    rw [Nat.succ_mul, Nat.succ_mul, Nat.mul_comm pages] at hroom
    omega
  · intro h
    by_contra hge
    omega

/-- A range below the last page is done with, if its pages allow it. -/
theorem overRange_spec (hk : k < bits) (hsize : pageSize.toNat = 2 ^ k)
    (hbody : ChangesCount pageSize P g body) (h : Counts pageSize f s)
    (hfit : r.p.toNat + r.size.toNat ≤ 2 ^ bits)
    (hroom : r.size ≠ 0 → r.p.toNat + r.size.toNat + pageSize.toNat ≤ 2 ^ bits)
    (hP : ∀ page, r.touches pageSize page = true → P (f page)) :
    ∃ s', (∀ fuel, 2 ^ bits ≤ fuel → overRange body fuel s r = some (.ok s')) ∧
      Counts pageSize (fun page => if r.touches pageSize page then g (f page) else f page) s' := by
  by_cases hne : r.size = 0
  · have hnone : ∀ page, ¬ r.touches pageSize page = true := fun page h => by
      simp [PageRange.touches, hne] at h
    refine ⟨s, fun fuel _ => if_pos hne, ?_⟩
    simpa only [if_neg (hnone _)] using h
  · have hiff := touches_iff hk hsize hne hfit
    have hpos : 0 < pageSize.toNat := hsize ▸ Nat.two_pow_pos k
    have hstart : pageSize.toNat ∣ (r.p &&& ~~~(pageSize - 1)).toNat := by
      rw [toNat_mask hk hsize]
      exact Nat.dvd_mul_left _ _
    have hfuel : 2 ^ bits ≤ (r.p &&& ~~~(pageSize - 1)).toNat + 2 ^ bits * pageSize.toNat :=
      (Nat.le_mul_of_pos_right _ hpos).trans (Nat.le_add_left _ _)
    obtain ⟨s', hloop, h'⟩ := forPages_spec hbody
      ((endPage_lt_iff hk hsize hne hfit).mpr (hroom hne)) hstart hfuel h fun q hdvd hq hqe =>
        hP q ((hiff q).mpr ⟨hdvd, hq, hqe⟩)
    refine ⟨s', fun fuel hfuel => ?_, ?_⟩
    · rw [overRange, if_neg hne, h.size_eq, h.mask_eq]
      exact hloop fuel hfuel
    · simpa only [hiff] using h'

/-- A range that is done with is below the last page, and its pages allow it. -/
theorem overRange_ok (hk : k < bits) (hsize : pageSize.toNat = 2 ^ k)
    (hbody : ChangesCount pageSize P g body) (h : Counts pageSize f s)
    (hfit : r.p.toNat + r.size.toNat ≤ 2 ^ bits) {fuel : Nat} {s' : LockedPageManager bits}
    (hrun : overRange body fuel s r = some (.ok s')) :
    (r.size ≠ 0 → r.p.toNat + r.size.toNat + pageSize.toNat ≤ 2 ^ bits) ∧
      ∀ page, r.touches pageSize page = true → P (f page) := by
  have hstart : pageSize.toNat ∣ (r.p &&& ~~~(pageSize - 1)).toNat := by
    rw [toNat_mask hk hsize]
    exact Nat.dvd_mul_left _ _
  have hdvd : pageSize.toNat ∣ 2 ^ bits := hsize ▸ Nat.pow_dvd_pow 2 hk.le
  by_cases hne : r.size = 0
  · refine ⟨fun h => absurd hne h, fun page h => ?_⟩
    simp [PageRange.touches, hne] at h
  · rw [overRange, if_neg hne, h.size_eq, h.mask_eq] at hrun
    have hend : ((r.p + r.size - 1) &&& ~~~(pageSize - 1)).toNat + pageSize.toNat < 2 ^ bits := by
      by_contra hlast
      exact forPages_last hdvd (Nat.le_of_not_lt hlast) fuel hstart s s' hrun
    refine ⟨fun _ => (endPage_lt_iff hk hsize hne hfit).mp hend, fun page htouches => ?_⟩
    obtain ⟨hpage, hlow, hhigh⟩ := (touches_iff hk hsize hne hfit page).mp htouches
    exact forPages_ok hbody hend hstart h hrun page hpage hlow hhigh

end range

end loop

/-! ## Runs -/

section runs

theorem users_cons (r : PageRange bits) (live : List (PageRange bits)) (page : BitVec bits) :
    users pageSize (r :: live) page =
      if r.touches pageSize page then users pageSize live page + 1
      else users pageSize live page := by
  unfold users
  rw [List.countP_cons]
  split <;> rfl

theorem users_erase {r : PageRange bits} {live : List (PageRange bits)} (h : r ∈ live)
    (page : BitVec bits) : users pageSize (live.erase r) page =
      if r.touches pageSize page then users pageSize live page - 1
      else users pageSize live page := by
  have hperm := (List.perm_cons_erase h).countP_eq fun r => r.touches pageSize page
  have hcons := @users_cons bits pageSize r (live.erase r) page
  unfold users at *
  rw [hperm, hcons]
  split <;> rfl

/-- A range in use keeps its pages in use. -/
theorem users_pos {r : PageRange bits} {live : List (PageRange bits)} (h : r ∈ live)
    {page : BitVec bits} (htouches : r.touches pageSize page = true) :
    0 < users pageSize live page := List.countP_pos_iff.mpr ⟨r, h, htouches⟩

variable {k : Nat} {live : List (PageRange bits)}

/-- What the ranges in use are known to be in a run. -/
structure InUse (pageSize : BitVec bits) (live : List (PageRange bits)) : Prop where
  fit : ∀ r ∈ live, r.p.toNat + r.size.toNat ≤ 2 ^ bits
  room : ∀ r ∈ live, r.size ≠ 0 → r.p.toNat + r.size.toNat + pageSize.toNat ≤ 2 ^ bits

theorem lockRange_spec (hk : k < bits) (hsize : pageSize.toNat = 2 ^ k) {r : PageRange bits}
    (hlive : InUse pageSize live) (h : Counts pageSize (users pageSize live) s)
    (hfit : r.p.toNat + r.size.toNat ≤ 2 ^ bits)
    (hroom : r.size ≠ 0 → r.p.toNat + r.size.toNat + pageSize.toNat ≤ 2 ^ bits)
    (hfull : ∀ page, r.touches pageSize page → users pageSize live page < 2 ^ 31 - 1) :
    ∃ s', (∀ fuel, 2 ^ bits ≤ fuel → lockRange fuel s r = some (.ok s')) ∧
      InUse pageSize (r :: live) ∧ Counts pageSize (users pageSize (r :: live)) s' := by
  obtain ⟨s', hcall, h'⟩ := overRange_spec hk hsize lockPage_spec h hfit hroom hfull
  refine ⟨s', hcall, ⟨List.forall_mem_cons.mpr ⟨hfit, hlive.fit⟩,
    List.forall_mem_cons.mpr ⟨hroom, hlive.room⟩⟩, ?_⟩
  rw [funext (users_cons r live)]
  exact h'

theorem unlockRange_spec (hk : k < bits) (hsize : pageSize.toNat = 2 ^ k) {r : PageRange bits}
    (hlive : InUse pageSize live) (h : Counts pageSize (users pageSize live) s) (hmem : r ∈ live) :
    ∃ s', (∀ fuel, 2 ^ bits ≤ fuel → unlockRange fuel s r = some (.ok s')) ∧
      InUse pageSize (live.erase r) ∧ Counts pageSize (users pageSize (live.erase r)) s' := by
  obtain ⟨s', hcall, h'⟩ := overRange_spec hk hsize unlockPage_spec h (hlive.fit r hmem)
    (hlive.room r hmem) fun page htouches => users_pos hmem htouches
  refine ⟨s', hcall, ⟨fun r hr => hlive.fit r (List.mem_of_mem_erase hr),
    fun r hr => hlive.room r (List.mem_of_mem_erase hr)⟩, ?_⟩
  rw [funext (users_erase hmem)]
  exact h'

theorem run_spec (hk : k < bits) (hsize : pageSize.toNat = 2 ^ k) {calls : List (PageCall bits)}
    (hpaired : Paired live calls) (hcountable : Countable pageSize live calls)
    (hlive : InUse pageSize live) (h : Counts pageSize (users pageSize live) s) :
    ∃ s', (∀ fuel, 2 ^ bits ≤ fuel → run fuel s calls = some (.ok s')) ∧
      Counts pageSize (users pageSize (liveAfter live calls)) s' := by
  induction calls generalizing live s with
  | nil => exact ⟨s, fun _ _ => rfl, h⟩
  | cons c calls ih =>
    cases c with
    | lockRange r =>
      obtain ⟨hfit, hpaired⟩ := hpaired
      obtain ⟨hroom, hfull, hcountable⟩ := hcountable
      obtain ⟨s₁, hcall, hlive₁, h₁⟩ := lockRange_spec hk hsize hlive h hfit hroom hfull
      obtain ⟨s', hrun, h'⟩ := ih hpaired hcountable hlive₁ h₁
      refine ⟨s', fun fuel hfuel => ?_, h'⟩
      rw [run, call, hcall fuel hfuel]
      exact hrun fuel hfuel
    | unlockRange r =>
      obtain ⟨hmem, hpaired⟩ := hpaired
      obtain ⟨s₁, hcall, hlive₁, h₁⟩ := unlockRange_spec hk hsize hlive h hmem
      obtain ⟨s', hrun, h'⟩ := ih hpaired hcountable hlive₁ h₁
      refine ⟨s', fun fuel hfuel => ?_, h'⟩
      rw [run, call, hcall fuel hfuel]
      exact hrun fuel hfuel

/-- A run goes on after a call that returns. -/
theorem run_cons {c : PageCall bits} {calls : List (PageCall bits)} {fuel : Nat}
    {s' : LockedPageManager bits} (h : run fuel s (c :: calls) = some (.ok s')) :
    ∃ s₁, s.call fuel c = some (.ok s₁) ∧ run fuel s₁ calls = some (.ok s') := by
  rw [run] at h
  split at h
  · next s₁ hcall => exact ⟨s₁, hcall, h⟩
  · next hcall => exact absurd h (hcall s')

/-- Where a run gets to its end, its ranges could be counted. -/
theorem run_ok (hk : k < bits) (hsize : pageSize.toNat = 2 ^ k) {calls : List (PageCall bits)}
    (hpaired : Paired live calls) (hlive : InUse pageSize live)
    (h : Counts pageSize (users pageSize live) s) {fuel : Nat} (hfuel : 2 ^ bits ≤ fuel)
    {s' : LockedPageManager bits} (hrun : run fuel s calls = some (.ok s')) :
    Countable pageSize live calls := by
  induction calls generalizing live s with
  | nil => trivial
  | cons c calls ih =>
    obtain ⟨s₁, hcall, hrun⟩ := run_cons hrun
    cases c with
    | lockRange r =>
      obtain ⟨hfit, hpaired⟩ := hpaired
      obtain ⟨hroom, hfull⟩ := overRange_ok hk hsize lockPage_spec h hfit hcall
      obtain ⟨s₂, hspec, hlive₂, h₂⟩ := lockRange_spec hk hsize hlive h hfit hroom hfull
      obtain rfl : s₂ = s₁ := by simpa [call, hspec fuel hfuel] using hcall
      exact ⟨hroom, hfull, ih hpaired hlive₂ h₂ hrun⟩
    | unlockRange r =>
      obtain ⟨hmem, hpaired⟩ := hpaired
      obtain ⟨s₂, hspec, hlive₂, h₂⟩ := unlockRange_spec hk hsize hlive h hmem
      obtain rfl : s₂ = s₁ := by simpa [call, hspec fuel hfuel] using hcall
      exact ih hpaired hlive₂ h₂ hrun

theorem paired_left {done calls : List (PageCall bits)} (h : Paired live (done ++ calls)) :
    Paired live done := by
  induction done generalizing live with
  | nil => trivial
  | cons c done ih =>
    cases c with
    | lockRange r => exact ⟨h.1, ih h.2⟩
    | unlockRange r => exact ⟨h.1, ih h.2⟩

theorem countable_left {done calls : List (PageCall bits)}
    (h : Countable pageSize live (done ++ calls)) : Countable pageSize live done := by
  induction done generalizing live with
  | nil => trivial
  | cons c done ih =>
    cases c with
    | lockRange r => exact ⟨h.1, h.2.1, ih h.2.2⟩
    | unlockRange r => exact ih h

theorem inUse_nil : InUse pageSize ([] : List (PageRange bits)) :=
  ⟨List.forall_mem_nil _, List.forall_mem_nil _⟩

/-- With a page size that is a power of two: all calls return and the counts stay those of the
ranges in use if and only if no range reaches the last page of the address space and no page gets
more users than an `int` counts. -/
theorem pagesExact_iff {k : Nat} (hk : k < bits) (hsize : pageSize.toNat = 2 ^ k)
    {calls : List (PageCall bits)} (hpaired : Paired [] calls) :
    PagesExact pageSize calls ↔ Countable pageSize [] calls := by
  constructor
  · intro h
    obtain ⟨s, hrun, -⟩ := h calls (List.prefix_refl calls)
    exact run_ok hk hsize hpaired inUse_nil (counts_new pageSize) (le_refl _) (hrun _ (le_refl _))
  · rintro hcountable done ⟨rest, rfl⟩
    exact run_spec hk hsize (paired_left hpaired) (countable_left hcountable) inUse_nil
      (counts_new pageSize)

/-- Two ranges that share a page. -/
theorem pagesExact_shared :
    PagesExact (4096 : BitVec 64)
        [.lockRange ⟨4095, 2⟩, .lockRange ⟨4096, 4096⟩, .unlockRange ⟨4095, 2⟩] ↔
      Countable (4096 : BitVec 64) []
        [.lockRange ⟨4095, 2⟩, .lockRange ⟨4096, 4096⟩, .unlockRange ⟨4095, 2⟩] :=
  pagesExact_iff (show 12 < 64 by decide) (by decide) ⟨by decide, by decide, by decide, trivial⟩

/-- A byte in the last page: the next page after it is the first one, so the loop does not end. -/
theorem not_pagesExact_lastPage :
    Paired [] [PageCall.lockRange (⟨0xfffffffffffff000, 1⟩ : PageRange 64)] ∧
    (∀ fuel s, run fuel (new 4096)
      [PageCall.lockRange (⟨0xfffffffffffff000, 1⟩ : PageRange 64)] ≠ some (.ok s)) ∧
    ¬ PagesExact 4096 [PageCall.lockRange (⟨0xfffffffffffff000, 1⟩ : PageRange 64)] := by
  have hnever : ∀ fuel s, run fuel (new 4096)
      [PageCall.lockRange (⟨0xfffffffffffff000, 1⟩ : PageRange 64)] ≠ some (.ok s) := by
    intro fuel s hrun
    obtain ⟨s₁, hcall, -⟩ := run_cons hrun
    have hcall : overRange lockPage fuel (new 4096) ⟨0xfffffffffffff000, 1⟩ = some (.ok s₁) := hcall
    obtain ⟨hroom, -⟩ := overRange_ok (show 12 < 64 by decide) (by decide) lockPage_spec
      (counts_new 4096) (by decide) hcall
    exact absurd (hroom (by decide)) (by decide)
  refine ⟨⟨by decide, trivial⟩, hnever, fun h => ?_⟩
  obtain ⟨s, hrun, -⟩ := h _ (List.prefix_refl _)
  exact hnever _ s (hrun _ (le_refl _))

end runs

end LockedPageManager

end NoLimitCoin
