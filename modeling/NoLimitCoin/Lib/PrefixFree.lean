import Mathlib.Data.List.Basic

/-!
# Codes that show where they end

A code is prefix-free when a text that starts with the code of a valid value determines that
value and the rest of the text.  Concatenations of such codes can be taken apart from the left,
so a record that writes its members one after another is injective.

Results:

1. `PrefixFree.injective`: different values have different codes.
2. `PrefixFree.of_length`: an injective code of one length is prefix-free.
3. `PrefixFree.counted`: so is a list that writes its length before its elements.
4. `PrefixFree.flatMap_isPrefix`: a text starts with the codes of a list only where the list does.
-/

variable {α β : Type}

/-- What stands before the rest of a text is the code of one valid value only. -/
def PrefixFree (Valid : α → Prop) (code : α → List β) : Prop :=
  ∀ a b, Valid a → Valid b → ∀ r s, code a ++ r = code b ++ s → a = b ∧ r = s

namespace PrefixFree

variable {Valid : α → Prop} {code : α → List β}

theorem injective (h : PrefixFree Valid code) {a b : α} (ha : Valid a) (hb : Valid b)
    (hab : code a = code b) : a = b :=
  (h a b ha hb [] [] (by rw [List.append_nil, List.append_nil, hab])).1

theorem of_length {n : Nat} (hlen : ∀ a, (code a).length = n)
    (hinj : ∀ a b, Valid a → Valid b → code a = code b → a = b) : PrefixFree Valid code := by
  intro a b ha hb r s h
  obtain ⟨hcode, hrest⟩ := List.append_inj h ((hlen a).trans (hlen b).symm)
  exact ⟨hinj a b ha hb hcode, hrest⟩

/-- Lists of one length, element by element. -/
theorem flatMap (h : PrefixFree Valid code) {xs ys : List α} (hx : ∀ a ∈ xs, Valid a)
    (hy : ∀ b ∈ ys, Valid b) (hlen : xs.length = ys.length) {r s : List β}
    (hcode : xs.flatMap code ++ r = ys.flatMap code ++ s) : xs = ys ∧ r = s := by
  induction xs generalizing ys with
  | nil =>
    cases ys with
    | nil => exact ⟨rfl, hcode⟩
    | cons b ys => exact absurd hlen (Nat.succ_ne_zero _).symm
  | cons a xs ih =>
    cases ys with
    | nil => exact absurd hlen (Nat.succ_ne_zero _)
    | cons b ys =>
      rw [List.flatMap_cons, List.flatMap_cons, List.append_assoc, List.append_assoc] at hcode
      obtain ⟨rfl, hrest⟩ := h a b (hx a List.mem_cons_self) (hy b List.mem_cons_self) _ _ hcode
      obtain ⟨rfl, hrs⟩ := ih (fun a' ha' => hx a' (List.mem_cons_of_mem _ ha'))
        (fun b' hb' => hy b' (List.mem_cons_of_mem _ hb')) (Nat.succ.inj hlen) hrest
      exact ⟨rfl, hrs⟩

/-- Codes in a row start with other codes in a row element by element, if no code starts in the
tail. -/
theorem flatMap_isPrefix (h : PrefixFree Valid code) {xs ys : List α} (hx : ∀ a ∈ xs, Valid a)
    (hy : ∀ b ∈ ys, Valid b) {tail : List β} (htail : ∀ a, Valid a → ¬ code a <+: tail) :
    xs.flatMap code <+: ys.flatMap code ++ tail ↔ xs <+: ys := by
  induction xs generalizing ys with
  | nil => exact iff_of_true List.nil_prefix List.nil_prefix
  | cons a xs ih =>
    obtain ⟨ha, hx⟩ := List.forall_mem_cons.mp hx
    cases ys with
    | nil =>
      refine iff_of_false (fun hcode => htail a ha ?_) fun heq => ?_
      · exact (List.prefix_append _ _).trans hcode
      · cases List.prefix_nil.mp heq
    | cons b ys =>
      obtain ⟨hb, hy⟩ := List.forall_mem_cons.mp hy
      rw [List.cons_prefix_cons, ← ih hx hy, List.flatMap_cons, List.flatMap_cons]
      constructor
      · rintro ⟨rest, hcode⟩
        rw [List.append_assoc, List.append_assoc] at hcode
        obtain ⟨rfl, hrest⟩ := h a b ha hb _ _ hcode
        exact ⟨rfl, rest, hrest⟩
      · rintro ⟨rfl, rest, hrest⟩
        exact ⟨rest, by rw [List.append_assoc, hrest, List.append_assoc]⟩

/-- A list behind the code of its length. -/
theorem counted {Size : Nat → Prop} {size : Nat → List β} (hsize : PrefixFree Size size)
    (h : PrefixFree Valid code) :
    PrefixFree (fun xs : List α => Size xs.length ∧ ∀ a ∈ xs, Valid a)
      fun xs => size xs.length ++ xs.flatMap code := by
  intro xs ys hx hy r s hcode
  rw [List.append_assoc, List.append_assoc] at hcode
  obtain ⟨hlen, hrest⟩ := hsize _ _ hx.1 hy.1 _ _ hcode
  exact h.flatMap hx.2 hy.2 hlen hrest

end PrefixFree
