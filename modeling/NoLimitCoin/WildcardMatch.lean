import NoLimitCoin.Lib.Glob
import NoLimitCoin.Strings

/-!
# Allow masks

`WildcardMatch` of `util.cpp` walks through a text and a mask together; at a star it tries the rest
of the mask first and then the star again on the rest of the text.

Results:
1. `wildcardMatchChars_iff`: the walk decides the language of the mask.
2. `wildcardMatch_iff`: so does the overload for strings, on what `c_str` shows of them.
-/

namespace NoLimitCoin

def charStar : UInt8 := 42
def charQuestion : UInt8 := 63

/-- `WildcardMatch` on pointers, each given by the characters before its terminator. -/
def wildcardMatchChars (psz mask : List UInt8) : Bool :=
  match mask with
  | [] => psz.isEmpty
  | m :: mask' =>
    if m = charStar then
      wildcardMatchChars psz mask' ||
        match psz with
        | [] => false
        | _ :: psz' => wildcardMatchChars psz' (m :: mask')
    else
      match psz with
      | [] => false
      | c :: psz' =>
        if m = charQuestion then wildcardMatchChars psz' mask'
        else if c ≠ m then false
        else wildcardMatchChars psz' mask'
termination_by psz.length + mask.length

/-- `WildcardMatch`. -/
def wildcardMatch (str mask : List UInt8) : Bool := wildcardMatchChars (cStr str) (cStr mask)

/-- What a character of a mask means. -/
def maskSymbol (m : UInt8) : GlobSymbol UInt8 :=
  if m = charStar then .star else if m = charQuestion then .any else .literal m

theorem maskSymbol_star : maskSymbol charStar = .star := rfl

theorem maskSymbol_ne_star {m : UInt8} (h : m ≠ charStar) : maskSymbol m ≠ .star := by
  rw [maskSymbol, if_neg h]
  split
  · exact nofun
  · exact nofun

theorem maskSymbol_literal {m : UInt8} (hstar : m ≠ charStar) (hquestion : m ≠ charQuestion) :
    maskSymbol m = .literal m := by
  rw [maskSymbol, if_neg hstar, if_neg hquestion]

theorem wildcardMatchChars_iff (psz mask : List UInt8) :
    wildcardMatchChars psz mask = true ↔ Glob (mask.map maskSymbol) psz := by
  induction psz, mask using wildcardMatchChars.induct with
  | case1 psz =>
    rw [wildcardMatchChars.eq_def, List.map_nil, Glob.nil_iff]
    exact List.isEmpty_iff
  | case2 psz mask hskip hstay =>
    -- the two calls are the two ways in which a star can begin
    rw [wildcardMatchChars.eq_def]
    simp only [if_pos]
    rw [List.map_cons, maskSymbol_star, Glob.star_iff, Bool.or_eq_true, hskip]
    refine or_congr_right ?_
    cases psz with
    | nil => exact ⟨nofun, fun ⟨_, _, htext, _⟩ => nomatch htext⟩
    | cons c psz =>
      have hgoes : wildcardMatchChars psz (charStar :: mask) = true ↔
          Glob (.star :: mask.map maskSymbol) psz := hstay
      rw [hgoes]
      constructor
      · exact fun h => ⟨c, psz, rfl, h⟩
      · rintro ⟨_, _, htext, h⟩
        obtain ⟨-, rfl⟩ := List.cons.inj htext
        exact h
  | case3 m mask hstar =>
    rw [wildcardMatchChars.eq_def]
    simp only [if_neg hstar]
    rw [List.map_cons]
    exact ⟨nofun, fun h => absurd h (Glob.not_nil (maskSymbol_ne_star hstar))⟩
  | case4 mask c psz hstar hrest =>
    rw [wildcardMatchChars.eq_def]
    simp only [if_neg hstar, if_pos]
    rw [hrest, List.map_cons]
    exact Glob.any_iff.symm
  | case5 m mask hstar c psz hquestion hne =>
    rw [wildcardMatchChars.eq_def]
    simp only [if_neg hstar]
    rw [if_neg hquestion, if_pos hne, List.map_cons, maskSymbol_literal hstar hquestion,
      Glob.literal_iff]
    exact ⟨nofun, fun h => absurd h.1 hne⟩
  | case6 m mask hstar c psz hquestion heq hrest =>
    rw [wildcardMatchChars.eq_def]
    simp only [if_neg hstar]
    rw [if_neg hquestion, if_neg heq, hrest, List.map_cons, maskSymbol_literal hstar hquestion,
      Glob.literal_iff]
    exact ⟨fun h => ⟨not_not.mp heq, h⟩, And.right⟩

/-- Both overloads decide the language of the mask. -/
theorem wildcardMatch_iff (str mask : List UInt8) :
    (wildcardMatchChars str mask = true ↔ Glob (mask.map maskSymbol) str) ∧
      (wildcardMatch str mask = true ↔ Glob ((cStr mask).map maskSymbol) (cStr str)) :=
  ⟨wildcardMatchChars_iff str mask, wildcardMatchChars_iff (cStr str) (cStr mask)⟩

end NoLimitCoin
