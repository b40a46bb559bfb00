import Mathlib.Algebra.Group.Int.Defs
import NoLimitCoin.Strings

/-!
# The text of a wallet dump

`rpcdump.cpp` escapes the characters of a label that could separate words or lines.  A dump is read
line by line, and a line word by word.

Results:
1. `decodeDumpString_encodeDumpString`: what is escaped is read back.
2. `encodeDumpString_printable`: an escaped label has no blank and no line end.
3. `lines_fileText`, `words_intercalate`: lines and words are read as they were written.
-/

namespace NoLimitCoin

/-! ## Escapes -/

def charNewline : UInt8 := 10
def charBlank : UInt8 := 32
def charHash : UInt8 := 35
def charPercent : UInt8 := 37

def hexmap (n : UInt8) : UInt8 := "0123456789abcdef".toUTF8.toList.getD n.toNat 0

/-- `HexStr`. -/
def hexStr (vch : List UInt8) : List UInt8 :=
  vch.flatMap fun val : UInt8 => [hexmap (val >>> 4), hexmap (val &&& 15)]

def encodeDumpChar (c : UInt8) : List UInt8 :=
  if c ≤ 32 ∨ 128 ≤ c ∨ c = charPercent then charPercent :: hexStr [c] else [c]

/-- `EncodeDumpString`. -/
def encodeDumpString (str : List UInt8) : List UInt8 := str.flatMap encodeDumpChar

/-- `(c>>6)*9+((c-'0')&15)` for a `char`, which has a sign. -/
def hexValue (c : UInt8) : Int :=
  Int.bmod c.toNat 256 / 2 ^ 6 * 9 + (Int.bmod c.toNat 256 - 48) % 16

/-- The character that two digits stand for: the low byte of what they are combined to. -/
def hexPair (a b : UInt8) : UInt8 :=
  UInt8.ofNat ((hexValue a * 2 ^ 4 % 256).toNat ||| (hexValue b % 256).toNat)

/-- `DecodeDumpString`. -/
def decodeDumpString : List UInt8 → List UInt8
  | c :: a :: b :: str =>
    if c = charPercent then hexPair a b :: decodeDumpString str
    else c :: decodeDumpString (a :: b :: str)
  | str => str

theorem hexPair_hexmap : ∀ c : UInt8, hexPair (hexmap (c >>> 4)) (hexmap (c &&& 15)) = c :=
  forall_character (by decide +kernel)

theorem decodeDumpString_plain {c : UInt8} (h : c ≠ charPercent) (str : List UInt8) :
    decodeDumpString (c :: str) = c :: decodeDumpString str := by
  match str with
  | [] => rfl
  | [a] => rfl
  | a :: b :: str => rw [decodeDumpString, if_neg h]

theorem decodeDumpString_escape (c : UInt8) (str : List UInt8) :
    decodeDumpString (charPercent :: hexStr [c] ++ str) = c :: decodeDumpString str := by
  show decodeDumpString (charPercent :: hexmap (c >>> 4) :: hexmap (c &&& 15) :: str) = _
  rw [decodeDumpString, if_pos rfl, hexPair_hexmap]

/-- What is escaped is read back. -/
theorem decodeDumpString_encodeDumpString (str : List UInt8) :
    decodeDumpString (encodeDumpString str) = str := by
  induction str with
  | nil => rfl
  | cons c str ih =>
    rw [encodeDumpString, List.flatMap_cons, ← encodeDumpString, encodeDumpChar]
    split
    · rw [decodeDumpString_escape, ih]
    · next h =>
      have hplain : c ≠ charPercent := fun hc => h (.inr (.inr hc))
      rw [List.singleton_append, decodeDumpString_plain hplain, ih]

/-- An escaped string has printable characters only, and no blank. -/
theorem encodeDumpString_printable (str : List UInt8) :
    ∀ c ∈ encodeDumpString str, 32 < c ∧ c < 128 := by
  have hall : ∀ c, (encodeDumpChar c).all (fun d => 32 < d ∧ d < 128) = true :=
    forall_character (by decide +kernel)
  intro c hc
  obtain ⟨d, -, hd⟩ := List.mem_flatMap.mp hc
  exact decide_eq_true_iff.mp (List.all_eq_true.mp (hall d) c hd)

/-! ## Lines and words -/

/-- What `file << ... << "\n"` writes for some lines. -/
def fileText (lines : List (List UInt8)) : List UInt8 := lines.flatMap (· ++ [charNewline])

/-- The lines that `getline` reads while the file is good. -/
def fileLines (file : List UInt8) : List (List UInt8) := file.splitOn charNewline

/-- `boost::split` at blanks. -/
def words (line : List UInt8) : List (List UInt8) := line.splitOn charBlank

/-- Lines are read as they were written, and an empty one at the end. -/
theorem fileLines_fileText {lines : List (List UInt8)} (h : ∀ line ∈ lines, charNewline ∉ line) :
    fileLines (fileText lines) = lines ++ [[]] := by
  induction lines with
  | nil => rfl
  | cons line lines ih =>
    obtain ⟨hline, hrest⟩ := List.forall_mem_cons.mp h
    have htail := ih hrest
    rw [fileLines] at htail
    rw [fileLines, fileText, List.flatMap_cons, List.append_assoc, List.singleton_append,
      List.splitOn_append_cons_self_of_not_mem hline, ← fileText, htail, List.cons_append]

theorem words_intercalate {strs : List (List UInt8)} (h : ∀ str ∈ strs, charBlank ∉ str)
    (hne : strs ≠ []) : words ([charBlank].intercalate strs) = strs :=
  List.splitOn_intercalate charBlank h hne

end NoLimitCoin
