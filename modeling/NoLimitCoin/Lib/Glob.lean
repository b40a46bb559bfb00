import Mathlib.Data.List.Basic

/-!
# Glob patterns

A pattern is a list of symbols, each of which stands for some substrings.  A text is in the language
of a pattern when it can be cut into one piece for each symbol.

Results:
1. `Glob.cons_iff`: the first symbol takes a piece off the front.
2. `Glob.star_iff`: a star takes nothing, or one character and stays.
-/

variable {α : Type}

/-- A symbol of a pattern: one character as it stands, any one character, or any substring. -/
inductive GlobSymbol (α : Type) where
  | literal (a : α)
  | any
  | star
  deriving DecidableEq

/-- The substrings that one symbol stands for. -/
def GlobSymbol.Matches : GlobSymbol α → List α → Prop
  | .literal a, piece => piece = [a]
  | .any, piece => piece.length = 1
  | .star, _ => True

/-- The text can be cut into pieces that the symbols match one after another. -/
def Glob (pattern : List (GlobSymbol α)) (text : List α) : Prop :=
  ∃ pieces : List (List α), pieces.flatten = text ∧ List.Forall₂ GlobSymbol.Matches pattern pieces

namespace Glob

variable {symbol : GlobSymbol α} {pattern : List (GlobSymbol α)} {text : List α} {a b : α}

theorem nil_iff : Glob ([] : List (GlobSymbol α)) text ↔ text = [] := by
  constructor
  · rintro ⟨pieces, rfl, hpieces⟩
    cases hpieces
    rfl
  · rintro rfl
    exact ⟨[], rfl, .nil⟩

theorem cons_iff : Glob (symbol :: pattern) text ↔
    ∃ piece rest, text = piece ++ rest ∧ symbol.Matches piece ∧ Glob pattern rest := by
  constructor
  · rintro ⟨pieces, rfl, hpieces⟩
    cases hpieces with
    | @cons _ piece _ pieces hpiece hrest =>
      exact ⟨piece, pieces.flatten, List.flatten_cons, hpiece, pieces, rfl, hrest⟩
  · rintro ⟨piece, rest, rfl, hpiece, pieces, rfl, hrest⟩
    exact ⟨piece :: pieces, List.flatten_cons, .cons hpiece hrest⟩

theorem literal_iff : Glob (.literal a :: pattern) (b :: text) ↔ b = a ∧ Glob pattern text := by
  rw [cons_iff]
  constructor
  · rintro ⟨piece, rest, htext, rfl, hrest⟩
    obtain ⟨hhead, rfl⟩ := List.cons.inj htext
    exact ⟨hhead, hrest⟩
  · rintro ⟨rfl, hrest⟩
    exact ⟨[b], text, rfl, rfl, hrest⟩

theorem any_iff : Glob (.any :: pattern) (b :: text) ↔ Glob pattern text := by
  rw [cons_iff]
  constructor
  · rintro ⟨piece, rest, htext, hpiece, hrest⟩
    obtain ⟨c, rfl⟩ := List.length_eq_one_iff.mp hpiece
    obtain ⟨-, rfl⟩ := List.cons.inj htext
    exact hrest
  · intro hrest
    exact ⟨[b], text, rfl, rfl, hrest⟩

/-- Nothing is left for a symbol that needs a character. -/
theorem not_nil (hsymbol : symbol ≠ .star) : ¬ Glob (symbol :: pattern) [] := by
  rw [cons_iff]
  rintro ⟨piece, rest, htext, hpiece, -⟩
  obtain ⟨rfl, -⟩ := List.append_eq_nil_iff.mp htext.symm
  cases symbol with
  | literal a => cases hpiece
  | any => cases hpiece
  | star => exact hsymbol rfl

/-- A star takes nothing, or one character and goes on. -/
theorem star_iff : Glob (.star :: pattern) text ↔
    Glob pattern text ∨ ∃ c rest, text = c :: rest ∧ Glob (.star :: pattern) rest := by
  rw [cons_iff]
  constructor
  · rintro ⟨piece, rest, rfl, -, hrest⟩
    cases piece with
    | nil => exact .inl hrest
    | cons c piece =>
      exact .inr ⟨c, piece ++ rest, rfl, cons_iff.mpr ⟨piece, rest, rfl, trivial, hrest⟩⟩
  · rintro (hglob | ⟨c, rest, rfl, hglob⟩)
    · exact ⟨[], text, rfl, trivial, hglob⟩
    · obtain ⟨piece, tail, rfl, -, htail⟩ := cons_iff.mp hglob
      exact ⟨c :: piece, tail, rfl, trivial, htail⟩

end Glob
