import NoLimitCoin.Lib.Buffer
import NoLimitCoin.Types

/-!
# Data streams

`CDataStream` of `serialize.h` is a vector of bytes of which the first `nReadPos` have been read.
Reading only moves `nReadPos`, and the vector is cleared when it gets to the end; everything else
goes past the bytes that have been read.  `<<` of another stream writes the whole vector of that
stream, the bytes that it has read as well.

Results:

1. `Op.exec_content`: what one operation does to the bytes that are left.
2. `rewind_read`: `Rewind` brings back the bytes of the last read.
3. `dataStream_isQueue`: a run of operations on a stream and on a plain list of bytes.
-/

namespace NoLimitCoin

open Buffer

/-- `CDataStream`; the exception mask is that of `Init`, so that a read past the end throws. -/
structure DataStream where
  vch : List UInt8
  nReadPos : Nat
  readPos_le : nReadPos ≤ vch.length
deriving DecidableEq

namespace DataStream

/-! ## The code -/

/-- An assignment to an `unsigned int`, and to an `int`. -/
def asUint (n : Nat) : Nat := n % 2 ^ 32

def asInt (n : Nat) : Int := Int.bmod n (2 ^ 32)

/-- The vector, cleared. -/
def cleared : DataStream := ⟨[], 0, Nat.le_refl 0⟩

def ofBytes (vch : List UInt8) : DataStream := ⟨vch, 0, Nat.zero_le _⟩

variable (s : DataStream)

/-- The bytes from `begin()` to `end()`. -/
def content : List UInt8 := s.vch.drop s.nReadPos

def size : Nat := s.vch.length - s.nReadPos

def empty : Bool := s.vch.length == s.nReadPos

/-- `operator[]`. -/
def get? (pos : Nat) : Option UInt8 := s.vch[pos + s.nReadPos]?

def clear (_ : DataStream) : DataStream := cleared

/-- A vector that has only grown or changed behind what has been read. -/
def withVch (vch : List UInt8) (h : s.nReadPos ≤ vch.length) : DataStream := ⟨vch, s.nReadPos, h⟩

/-- A failed assertion, and a pointer or an iterator out of range. -/
def assertion : Exit := .abort "assert"

def outOfRange : Exit := .abort "out of range"

/-- `memcpy(pch, &vch[pos], n)`. -/
def copyOut (pos n : Nat) : Except Exit (List UInt8) :=
  if pos + n ≤ s.vch.length then .ok ((s.vch.drop pos).take n) else .error outOfRange

def read (nSize : Int) : Except Exit (List UInt8 × DataStream) :=
  if nSize < 0 then .error assertion
  else
    let nReadPosNext := asUint (s.nReadPos + nSize.toNat)
    if h : nReadPosNext ≥ s.vch.length then
      if nReadPosNext > s.vch.length then .error (.abort "CDataStream::read() : end of data")
      else (s.copyOut s.nReadPos nSize.toNat).map fun pch => (pch, cleared)
    else (s.copyOut s.nReadPos nSize.toNat).map fun pch =>
      (pch, ⟨s.vch, nReadPosNext, Nat.le_of_not_le h⟩)

def ignore (nSize : Int) : Except Exit DataStream :=
  if nSize < 0 then .error assertion
  else
    let nReadPosNext := asUint (s.nReadPos + nSize.toNat)
    if h : nReadPosNext ≥ s.vch.length then
      if nReadPosNext > s.vch.length then .error (.abort "CDataStream::ignore() : end of data")
      else .ok cleared
    else .ok ⟨s.vch, nReadPosNext, Nat.le_of_not_le h⟩

/-- `write`; `pch` are the bytes that can be read at the pointer. -/
def write (pch : List UInt8) (nSize : Int) : Except Exit DataStream :=
  if nSize < 0 then .error assertion
  else if pch.length < nSize.toNat then .error outOfRange
  else .ok (s.withVch (s.vch ++ pch.take nSize.toNat) (by
    rw [List.length_append]
    exact s.readPos_le.trans (Nat.le_add_right _ _)))

/-- `vch.insert`. -/
def vchInsert (it : Nat) (xs : List UInt8) : Except Exit DataStream :=
  if h : it ≤ s.vch.length then .ok (s.withVch (splice s.vch it xs) (by
    rw [length_splice h]
    exact s.readPos_le.trans (Nat.le_add_right _ _)))
  else .error outOfRange

def insertOne (it : Nat) (x : UInt8) : Except Exit DataStream := s.vchInsert it [x]

def insertFill (it n : Nat) (x : UInt8) : Except Exit DataStream :=
  s.vchInsert it (List.replicate n x)

/-- `insert` of a range: at the front the area that has been read is used again. -/
def insertRange (it : Nat) (xs : List UInt8) : Except Exit DataStream :=
  if it = s.nReadPos ∧ asUint xs.length ≤ s.nReadPos then
    let nReadPos := s.nReadPos - asUint xs.length
    if h : nReadPos + xs.length ≤ s.vch.length then
      .ok ⟨overwrite s.vch nReadPos xs, nReadPos, by
        rw [length_overwrite h]
        exact (Nat.le_add_right _ _).trans h⟩
    else .error outOfRange
  else s.vchInsert it xs

/-- `vch.erase` behind what has been read. -/
def vchErase (first last : Nat) : Except Exit DataStream :=
  if h : s.nReadPos ≤ first ∧ first ≤ last ∧ last ≤ s.vch.length then
    .ok (s.withVch (cut s.vch first last) (by
      rw [length_cut h.2.1 h.2.2]
      omega))
  else .error outOfRange

def eraseOne (it : Nat) : Except Exit DataStream :=
  if it = s.nReadPos then
    let nReadPos := asUint (s.nReadPos + 1)
    if h : nReadPos ≥ s.vch.length then .ok cleared
    else .ok ⟨s.vch, nReadPos, Nat.le_of_not_le h⟩
  else s.vchErase it (it + 1)

def eraseRange (first last : Nat) : Except Exit DataStream :=
  if first = s.nReadPos then
    if last = s.vch.length then .ok cleared
    else if h : asUint last ≤ s.vch.length then .ok ⟨s.vch, asUint last, h⟩
    else .error outOfRange
  else s.vchErase first last

def resize (n : Nat) (c : UInt8) : DataStream :=
  s.withVch (Buffer.resize s.vch (n + s.nReadPos) c) (by
    rw [length_resize]
    exact Nat.le_add_left _ _)

def compact : DataStream := ofBytes (cut s.vch 0 s.nReadPos)

/-- `operator+=`. -/
def append (b : DataStream) : DataStream :=
  s.withVch (s.vch ++ b.content) (by
    rw [List.length_append]
    exact s.readPos_le.trans (Nat.le_add_right _ _))

/-- `Serialize`: "stream << stream concatenates like stream += stream". -/
def serialize (b : DataStream) : Except Exit DataStream :=
  if b.vch.isEmpty then .ok s else s.write b.vch (asInt b.vch.length)

def rewind (n : Nat) : Bool × DataStream :=
  if n > s.nReadPos then (false, s)
  else (true, ⟨s.vch, s.nReadPos - n, (Nat.sub_le _ _).trans s.readPos_le⟩)

/-! ## Operations -/

/-- An operation on a stream; positions are counted from `begin()`. -/
inductive Op where
  | write (pch : List UInt8) (nSize : Int)
  | read (nSize : Int)
  | ignore (nSize : Int)
  | insertOne (pos : Nat) (x : UInt8)
  | insertFill (pos n : Nat) (x : UInt8)
  | insertRange (pos : Nat) (xs : List UInt8)
  | eraseOne (pos : Nat)
  | eraseRange (first last : Nat)
  | resize (n : Nat) (c : UInt8)
  | compact
  | clear
  /-- `+=` of another stream. -/
  | append (b : DataStream)
  /-- `<<` of another stream. -/
  | shiftIn (b : DataStream)

namespace Op

/-- The iterators lie in the stream. -/
def inRange (size : Nat) : Op → Bool
  | insertOne pos _ => pos ≤ size
  | insertFill pos _ _ => pos ≤ size
  | insertRange pos _ => pos ≤ size
  | eraseOne pos => pos < size
  | eraseRange first last => first ≤ last && last ≤ size
  | _ => true

/-- An operation that returns nothing. -/
def silent {σ : Type} (r : Except Exit σ) : Except Exit (List UInt8 × σ) := r.map fun s => ([], s)

/-- The operation on the stream: the bytes that it returns, and the stream behind it. -/
def apply (s : DataStream) : Op → Except Exit (List UInt8 × DataStream)
  | write pch nSize => silent (s.write pch nSize)
  | read nSize => s.read nSize
  | ignore nSize => silent (s.ignore nSize)
  | insertOne pos x => silent (s.insertOne (s.nReadPos + pos) x)
  | insertFill pos n x => silent (s.insertFill (s.nReadPos + pos) n x)
  | insertRange pos xs => silent (s.insertRange (s.nReadPos + pos) xs)
  | eraseOne pos => silent (s.eraseOne (s.nReadPos + pos))
  | eraseRange first last => silent (s.eraseRange (s.nReadPos + first) (s.nReadPos + last))
  | resize n c => .ok ([], s.resize n c)
  | compact => .ok ([], s.compact)
  | clear => .ok ([], s.clear)
  | append b => .ok ([], s.append b)
  | shiftIn b => silent (s.serialize b)

/-- An operation whose iterators are out of range is not made. -/
def exec (s : DataStream) (op : Op) : Except Exit (List UInt8 × DataStream) :=
  if op.inRange s.size then op.apply s else .error outOfRange

/-- The same operation on a plain list of bytes. -/
def applyPlain (bytes : List UInt8) : Op → Except Exit (List UInt8 × List UInt8)
  | write pch nSize =>
    if nSize < 0 then .error assertion
    else if pch.length < nSize.toNat then .error outOfRange
    else .ok ([], bytes ++ pch.take nSize.toNat)
  | read nSize =>
    if nSize < 0 then .error assertion
    else if bytes.length < nSize.toNat then
      .error (.abort "CDataStream::read() : end of data")
    else .ok (bytes.take nSize.toNat, bytes.drop nSize.toNat)
  | ignore nSize =>
    if nSize < 0 then .error assertion
    else if bytes.length < nSize.toNat then
      .error (.abort "CDataStream::ignore() : end of data")
    else .ok ([], bytes.drop nSize.toNat)
  | insertOne pos x => .ok ([], splice bytes pos [x])
  | insertFill pos n x => .ok ([], splice bytes pos (List.replicate n x))
  | insertRange pos xs => .ok ([], splice bytes pos xs)
  | eraseOne pos => .ok ([], cut bytes pos (pos + 1))
  | eraseRange first last => .ok ([], cut bytes first last)
  | resize n c => .ok ([], Buffer.resize bytes n c)
  | compact => .ok ([], bytes)
  | clear => .ok ([], [])
  | append b => .ok ([], bytes ++ b.content)
  | shiftIn b => .ok ([], bytes ++ b.content)

def execPlain (bytes : List UInt8) (op : Op) : Except Exit (List UInt8 × List UInt8) :=
  if op.inRange bytes.length then op.applyPlain bytes else .error outOfRange

/-- The positions fit into an `unsigned int`, and a stream that `<<` writes has nothing in its
vector that it has read. -/
def Fits (s : DataStream) : Op → Prop
  | read nSize => s.nReadPos + nSize.toNat < 2 ^ 32
  | ignore nSize => s.nReadPos + nSize.toNat < 2 ^ 32
  | insertRange _ xs => xs.length < 2 ^ 32
  | eraseOne pos => s.nReadPos + pos + 1 < 2 ^ 32
  | eraseRange _ last => s.nReadPos + last < 2 ^ 32
  | shiftIn b => b.nReadPos = 0 ∧ b.vch.length < 2 ^ 31
  | _ => True

end Op

/-! ## One operation -/

section operation

variable {s b : DataStream}

theorem length_content (s : DataStream) : s.content.length = s.size := List.length_drop

theorem asUint_of_lt {n : Nat} (h : n < 2 ^ 32) : asUint n = n := Nat.mod_eq_of_lt h

theorem asInt_of_lt {n : Nat} (h : n < 2 ^ 31) : asInt n = n :=
  Int.bmod_eq_of_le (by omega) (by omega)

theorem content_cleared : cleared.content = [] := rfl

theorem content_withVch {vch : List UInt8} (h : s.nReadPos ≤ vch.length) :
    (s.withVch vch h).content = vch.drop s.nReadPos := rfl

/-- Moving the position on drops bytes from the front. -/
theorem content_readPos {n pos : Nat} (hpos : pos = s.nReadPos + n) (h : pos ≤ s.vch.length) :
    (⟨s.vch, pos, h⟩ : DataStream).content = s.content.drop n := by
  subst hpos
  exact List.drop_drop.symm

theorem copyOut_eq {n : Nat} (h : s.nReadPos + n ≤ s.vch.length) :
    s.copyOut s.nReadPos n = .ok (s.content.take n) := if_pos h

theorem read_content {nSize : Int} (h : s.nReadPos + nSize.toNat < 2 ^ 32) :
    (s.read nSize).map (Prod.map id content) = (Op.read nSize).applyPlain s.content := by
  have hle := s.readPos_le
  have hnext := asUint_of_lt h
  unfold read
  dsimp only [Op.applyPlain]
  rw [length_content, size]
  split
  · rfl
  · split
    · next hend =>
      split
      · rw [if_pos (by omega)]
        rfl
      · rw [if_neg (by omega), copyOut_eq (by omega), List.drop_of_length_le]
        · rfl
        · rw [length_content, size]
          omega
    · next hend =>
      rw [if_neg (by omega), copyOut_eq (by omega)]
      exact congrArg (fun rest => Except.ok (s.content.take nSize.toNat, rest))
        (content_readPos hnext _)

theorem ignore_content {nSize : Int} (h : s.nReadPos + nSize.toNat < 2 ^ 32) :
    (Op.silent (s.ignore nSize)).map (Prod.map id content) =
      (Op.ignore nSize).applyPlain s.content := by
  have hle := s.readPos_le
  have hnext := asUint_of_lt h
  unfold ignore
  dsimp only [Op.applyPlain]
  rw [length_content, size]
  split
  · rfl
  · split
    · next hend =>
      split
      · rw [if_pos (by omega)]
        rfl
      · rw [if_neg (by omega), List.drop_of_length_le]
        · rfl
        · rw [length_content, size]
          omega
    · next hend =>
      rw [if_neg (by omega)]
      exact congrArg (fun rest => Except.ok ([], rest)) (content_readPos hnext _)

theorem write_content (s : DataStream) (pch : List UInt8) (nSize : Int) :
    (Op.silent (s.write pch nSize)).map (Prod.map id content) =
      (Op.write pch nSize).applyPlain s.content := by
  unfold write
  dsimp only [Op.applyPlain]
  split
  · rfl
  · split
    · rfl
    · exact congrArg (fun bytes => Except.ok ([], bytes))
        (List.drop_append_of_le_length s.readPos_le)

theorem vchInsert_content {pos : Nat} (h : pos ≤ s.size) (xs : List UInt8) :
    (Op.silent (s.vchInsert (s.nReadPos + pos) xs)).map (Prod.map id content) =
      .ok ([], splice s.content pos xs) := by
  have hle := s.readPos_le
  have hpos : s.nReadPos + pos ≤ s.vch.length := by
    rw [size] at h
    omega
  unfold vchInsert
  rw [dif_pos hpos]
  refine congrArg (fun bytes => Except.ok ([], bytes)) ?_
  rw [content_withVch, drop_splice (Nat.le_add_right _ _) hpos, Nat.add_sub_cancel_left]
  rfl

/-- The special case puts the bytes right before those that are left. -/
theorem insertRange_content {pos : Nat} (h : pos ≤ s.size) {xs : List UInt8}
    (hxs : xs.length < 2 ^ 32) :
    (Op.silent (s.insertRange (s.nReadPos + pos) xs)).map (Prod.map id content) =
      .ok ([], splice s.content pos xs) := by
  have hle := s.readPos_le
  have hlen := asUint_of_lt hxs
  unfold insertRange
  split
  · next hfront =>
    obtain ⟨hpos, hroom⟩ := hfront
    obtain rfl : pos = 0 := by omega
    have hsum : s.nReadPos - xs.length + xs.length = s.nReadPos := by omega
    have hlength : (s.vch.take (s.nReadPos - xs.length)).length = s.nReadPos - xs.length := by
      rw [List.length_take]
      omega
    dsimp only
    rw [dif_pos (by omega)]
    refine congrArg (fun bytes => Except.ok ([], bytes)) ?_
    show (overwrite s.vch (s.nReadPos - asUint xs.length) xs).drop (s.nReadPos - asUint xs.length)
      = _
    rw [hlen, overwrite, hsum, List.append_assoc, List.drop_left' hlength]
    rfl
  · exact vchInsert_content h xs

theorem vchErase_content {first last : Nat} (h : first ≤ last) (hlast : last ≤ s.size) :
    (Op.silent (s.vchErase (s.nReadPos + first) (s.nReadPos + last))).map (Prod.map id content) =
      .ok ([], cut s.content first last) := by
  have hle := s.readPos_le
  have hend : s.nReadPos + last ≤ s.vch.length := by
    rw [size] at hlast
    omega
  unfold vchErase
  rw [dif_pos ⟨Nat.le_add_right _ _, Nat.add_le_add_left h _, hend⟩]
  refine congrArg (fun bytes => Except.ok ([], bytes)) ?_
  rw [content_withVch, drop_cut (Nat.le_add_right _ _) (Nat.add_le_add_left h _) hend,
    Nat.add_sub_cancel_left, Nat.add_sub_cancel_left]
  rfl

theorem eraseOne_content {pos : Nat} (h : pos < s.size) (hfits : s.nReadPos + pos + 1 < 2 ^ 32) :
    (Op.silent (s.eraseOne (s.nReadPos + pos))).map (Prod.map id content) =
      .ok ([], cut s.content pos (pos + 1)) := by
  have hle := s.readPos_le
  unfold eraseOne
  split
  · next hfront =>
    obtain rfl : pos = 0 := by omega
    have hnext : asUint (s.nReadPos + 1) = s.nReadPos + 1 := asUint_of_lt hfits
    dsimp only
    rw [cut_zero]
    split
    · next hend =>
      rw [List.drop_of_length_le]
      · rfl
      · rw [length_content, size]
        omega
    · exact congrArg (fun bytes => Except.ok ([], bytes)) (content_readPos hnext _)
  · exact vchErase_content (Nat.le_succ pos) h

theorem eraseRange_content {first last : Nat} (h : first ≤ last) (hlast : last ≤ s.size)
    (hfits : s.nReadPos + last < 2 ^ 32) :
    (Op.silent (s.eraseRange (s.nReadPos + first) (s.nReadPos + last))).map
      (Prod.map id content) = .ok ([], cut s.content first last) := by
  have hle := s.readPos_le
  unfold eraseRange
  split
  · next hfront =>
    obtain rfl : first = 0 := by omega
    rw [asUint_of_lt hfits, cut_zero]
    split
    · next hend =>
      rw [List.drop_of_length_le]
      · rfl
      · rw [length_content, size]
        omega
    · rw [dif_pos (by rw [size] at hlast; omega)]
      exact congrArg (fun bytes => Except.ok ([], bytes)) (content_readPos rfl _)
  · exact vchErase_content h hlast

theorem resize_content (s : DataStream) (n : Nat) (c : UInt8) :
    (s.resize n c).content = Buffer.resize s.content n c := drop_resize s.readPos_le c

theorem append_content (s b : DataStream) : (s.append b).content = s.content ++ b.content :=
  List.drop_append_of_le_length s.readPos_le

/-- Without bytes that it has read, the other stream is written as `+=` appends it. -/
theorem serialize_content (hread : b.nReadPos = 0) (hlength : b.vch.length < 2 ^ 31) :
    (Op.silent (s.serialize b)).map (Prod.map id content) =
      .ok ([], s.content ++ b.content) := by
  have hb : b.content = b.vch := by rw [content, hread, List.drop_zero]
  unfold serialize
  split
  · next hempty =>
    rw [hb, List.isEmpty_iff.mp hempty, List.append_nil]
    rfl
  · rw [write_content, Op.applyPlain, asInt_of_lt hlength, if_neg (by omega), Int.toNat_natCast,
      if_neg (Nat.lt_irrefl _), List.take_length, hb]

/-- An operation does to the bytes that are left what it does to a plain list. -/
theorem Op.exec_content {op : Op} (h : op.Fits s) :
    (op.exec s).map (Prod.map id content) = op.execPlain s.content := by
  unfold exec execPlain
  rw [length_content]
  split
  · next hrange =>
    cases op with
    | write pch nSize => exact write_content s pch nSize
    | read nSize => exact read_content h
    | ignore nSize => exact ignore_content h
    | insertOne pos x => exact vchInsert_content (of_decide_eq_true hrange) [x]
    | insertFill pos n x => exact vchInsert_content (of_decide_eq_true hrange) _
    | insertRange pos xs => exact insertRange_content (of_decide_eq_true hrange) h
    | eraseOne pos => exact eraseOne_content (of_decide_eq_true hrange) h
    | eraseRange first last =>
      obtain ⟨hfirst, hlast⟩ := Bool.and_eq_true_iff.mp hrange
      exact eraseRange_content (of_decide_eq_true hfirst) (of_decide_eq_true hlast) h
    | resize n c => exact congrArg (fun bytes => Except.ok ([], bytes)) (resize_content s n c)
    | compact => rfl
    | clear => rfl
    | append b => exact congrArg (fun bytes => Except.ok ([], bytes)) (append_content s b)
    | shiftIn b => exact serialize_content h.1 h.2
  · rfl

end operation

/-- `Rewind` after a read that has not got to the end brings back what has been read last. -/
theorem rewind_read {s s' : DataStream} {k n : Nat} {pch : List UInt8}
    (hread : s.read k = .ok (pch, s')) (hlonger : k < s.size) (hfits : s.nReadPos + k < 2 ^ 32)
    (hn : n ≤ k) :
    (s'.rewind n).1 = true ∧ (s'.rewind n).2.content = pch.drop (k - n) ++ s'.content := by
  have hsize := hlonger
  rw [size] at hsize
  have hnext : asUint (s.nReadPos + (k : Int).toNat) = s.nReadPos + k := asUint_of_lt hfits
  unfold read at hread
  rw [if_neg (by omega)] at hread
  dsimp only at hread
  rw [dif_neg (by omega), copyOut_eq (by rw [Int.toNat_natCast]; omega)] at hread
  obtain ⟨rfl, rfl⟩ := Prod.mk.inj (Except.ok.inj hread)
  unfold rewind
  rw [if_neg (by dsimp only; omega)]
  refine ⟨rfl, ?_⟩
  dsimp only [content]
  have hpos : s.nReadPos + k - n = s.nReadPos + (k - n) := by omega
  have hback : s.nReadPos + k = s.nReadPos + (k - n) + n := by omega
  rw [hnext, hpos, hback, Int.toNat_natCast, ← List.drop_drop, ← List.drop_drop, ← List.drop_drop,
    List.drop_take, Nat.sub_sub_self hn, List.take_append_drop]

/-! ## Runs -/

section runs

variable {σ : Type}

/-- The answers to a sequence of operations, and the last state; one that throws changes
nothing. -/
def runOps (exec : σ → Op → Except Exit (List UInt8 × σ)) :
    σ → List Op → List (Except Exit (List UInt8)) × σ
  | s, [] => ([], s)
  | s, op :: ops =>
    match exec s op with
    | .ok (pch, s') => ((.ok pch :: (runOps exec s' ops).1), (runOps exec s' ops).2)
    | .error e => ((.error e :: (runOps exec s ops).1), (runOps exec s ops).2)

def run : DataStream → List Op → List (Except Exit (List UInt8)) × DataStream :=
  runOps fun s op => op.exec s

def runPlain : List UInt8 → List Op → List (Except Exit (List UInt8)) × List UInt8 :=
  runOps fun bytes op => op.execPlain bytes

/-- Every operation of the run fits the stream that it meets. -/
def FitsRun : DataStream → List Op → Prop
  | _, [] => True
  | s, op :: ops => op.Fits s ∧ FitsRun (run s [op]).2 ops

/-- A stream shows exactly these bytes. -/
structure Shows (s : DataStream) (bytes : List UInt8) : Prop where
  content : s.content = bytes
  size : s.size = bytes.length
  empty : s.empty = bytes.isEmpty
  get? : ∀ pos, s.get? pos = bytes[pos]?

theorem shows_content (s : DataStream) : Shows s s.content where
  content := rfl
  size := (length_content s).symm
  empty := by
    have hle := s.readPos_le
    have hsize := length_content s
    rw [size] at hsize
    rw [Bool.eq_iff_iff, empty, beq_iff_eq, List.isEmpty_iff, ← List.length_eq_zero_iff]
    omega
  get? pos := by
    rw [get?, DataStream.content, List.getElem?_drop, Nat.add_comm]

/-- A run gives the answers, and leaves the bytes, of the same run on a plain list. -/
theorem run_content {s : DataStream} {ops : List Op} (h : FitsRun s ops) :
    (run s ops).1 = (runPlain s.content ops).1 ∧
      (run s ops).2.content = (runPlain s.content ops).2 := by
  induction ops generalizing s with
  | nil => exact ⟨rfl, rfl⟩
  | cons op ops ih =>
    obtain ⟨hfits, hrest⟩ := h
    have hop := op.exec_content hfits
    dsimp only [run, runPlain, runOps] at hrest ih ⊢
    rw [← hop]
    cases hexec : op.exec s with
    | error e =>
      rw [hexec] at hrest
      obtain ⟨hanswers, hbytes⟩ := ih hrest
      exact ⟨congrArg _ hanswers, hbytes⟩
    | ok r =>
      rw [hexec] at hrest
      obtain ⟨hanswers, hbytes⟩ := ih hrest
      exact ⟨congrArg _ hanswers, hbytes⟩

end runs

/-- The stream behind a run shows the bytes of the plain list, every operation has answered the
same, and a `Rewind` after one more read brings back the bytes of that read. -/
theorem dataStream_isQueue {s : DataStream} {ops : List Op} (h : FitsRun s ops) :
    (run s ops).1 = (runPlain s.content ops).1 ∧
      Shows (run s ops).2 (runPlain s.content ops).2 ∧
      ∀ (k n : Nat) (pch : List UInt8) (s' : DataStream), (run s ops).2.read k = .ok (pch, s') →
        k < (run s ops).2.size → (Op.read k).Fits (run s ops).2 → n ≤ k →
        (s'.rewind n).1 = true ∧ Shows (s'.rewind n).2 (pch.drop (k - n) ++ s'.content) := by
  obtain ⟨hanswers, hbytes⟩ := run_content h
  refine ⟨hanswers, hbytes ▸ shows_content _, fun k n pch s' hread hlonger hfits hn => ?_⟩
  obtain ⟨htrue, hback⟩ := rewind_read hread hlonger hfits hn
  exact ⟨htrue, hback ▸ shows_content _⟩

section samples

/-- Two bytes, of which one has been read. -/
def partlyRead : DataStream := (run (ofBytes [1, 2]) [.read 1]).2

theorem dataStream_isQueue_sample :
    Shows (run (ofBytes [1, 2, 3]) [.read 2, .insertRange 0 [9], .append partlyRead]).2
      [9, 3, 2] :=
  (@dataStream_isQueue (ofBytes [1, 2, 3]) [.read 2, .insertRange 0 [9], .append partlyRead]
    ⟨show 0 + 2 < 2 ^ 32 by decide, show 1 < 2 ^ 32 by decide, trivial, trivial⟩).2.1

/-- `<<` of a stream that has been read in part brings back what has been read. -/
theorem shiftIn_not_append :
    (run (ofBytes []) [.shiftIn partlyRead]).2.content = [1, 2] ∧
      (run (ofBytes []) [.append partlyRead]).2.content = [2] ∧
      (runPlain [] [.shiftIn partlyRead]).2 = [2] := by
  decide

end samples

end DataStream

end NoLimitCoin
