import Mathlib.Data.List.TakeWhile

/-!
# Strings

A string is its bytes; a C string is the bytes before its terminator.
-/

namespace NoLimitCoin

/-- What `c_str` shows of a string: the characters before the first terminator. -/
def cStr (str : List UInt8) : List UInt8 := str.takeWhile (· ≠ 0)

theorem cStr_eq {str : List UInt8} (h : 0 ∉ str) : cStr str = str := by
  refine List.takeWhile_eq_self_iff.mpr fun c hc => decide_eq_true ?_
  rintro rfl
  exact h hc

/-- A fact of every character, from the 256 that there are. -/
theorem forall_character {P : UInt8 → Prop} (h : ∀ c : Fin 256, P (UInt8.ofNat c)) (c : UInt8) :
    P c := by
  have hc := h ⟨c.toNat, c.toNat_lt⟩
  rwa [UInt8.ofNat_toNat] at hc

end NoLimitCoin
