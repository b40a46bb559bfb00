import Mathlib.Data.List.Basic

/-!
# Buffers

Copying a part into a buffer, and the operations of a vector of which only the end is looked at.

Results:

1. `take_overwrite`: a part that is written right after another one extends it.
2. `overwrite_append`: a part in the middle is replaced.
3. `drop_splice`, `drop_cut`, `drop_resize`: an operation behind the part that is left out.
-/

namespace Buffer

variable {α : Type}

/-- Write `xs` into the buffer from `pos` on. -/
def overwrite (buf : List α) (pos : Nat) (xs : List α) : List α :=
  buf.take pos ++ xs ++ buf.drop (pos + xs.length)

section overwrite

variable {buf xs : List α} {pos : Nat}

theorem length_overwrite (h : pos + xs.length ≤ buf.length) :
    (overwrite buf pos xs).length = buf.length := by
  simp only [overwrite, List.length_append, List.length_take, List.length_drop]
  omega

/-- What was there before the written part, and the written part. -/
theorem take_overwrite (h : pos ≤ buf.length) :
    (overwrite buf pos xs).take (pos + xs.length) = buf.take pos ++ xs := by
  rw [overwrite, List.take_left']
  rw [List.length_append, List.length_take, Nat.min_eq_left h]

/-- The buffer as three parts, the middle one overwritten. -/
theorem overwrite_append (as bs cs : List α) (h : bs.length = xs.length) :
    overwrite (as ++ bs ++ cs) as.length xs = as ++ xs ++ cs := by
  rw [overwrite, ← h, ← List.length_append, List.drop_left, List.append_assoc as bs cs,
    List.take_left]

end overwrite

/-! ## Vectors -/

/-- `insert(begin() + pos, first, last)`. -/
def splice (buf : List α) (pos : Nat) (xs : List α) : List α := buf.take pos ++ xs ++ buf.drop pos

/-- `erase(begin() + first, begin() + last)`. -/
def cut (buf : List α) (first last : Nat) : List α := buf.take first ++ buf.drop last

/-- `resize(n, c)`. -/
def resize (buf : List α) (n : Nat) (c : α) : List α :=
  buf.take n ++ List.replicate (n - buf.length) c

section vectors

variable {buf xs : List α} {k pos first last n : Nat}

theorem length_splice (h : pos ≤ buf.length) :
    (splice buf pos xs).length = buf.length + xs.length := by
  simp only [splice, List.length_append, List.length_take, List.length_drop]
  omega

theorem length_cut (h : first ≤ last) (hlast : last ≤ buf.length) :
    (cut buf first last).length = buf.length - (last - first) := by
  simp only [cut, List.length_append, List.length_take, List.length_drop]
  omega

theorem length_resize (buf : List α) (n : Nat) (c : α) : (resize buf n c).length = n := by
  simp only [resize, List.length_append, List.length_take, List.length_replicate]
  omega

/-- An insertion behind the first `k` items. -/
theorem drop_splice (hk : k ≤ pos) (h : pos ≤ buf.length) :
    (splice buf pos xs).drop k = splice (buf.drop k) (pos - k) xs := by
  have hlength : k ≤ (buf.take pos).length := by
    rw [List.length_take]
    omega
  rw [splice, splice, List.append_assoc, List.drop_append_of_le_length hlength, List.drop_take,
    List.drop_drop, Nat.add_sub_cancel' hk, List.append_assoc]

/-- An erasure behind the first `k` items. -/
theorem drop_cut (hk : k ≤ first) (h : first ≤ last) (hlast : last ≤ buf.length) :
    (cut buf first last).drop k = cut (buf.drop k) (first - k) (last - k) := by
  have hlength : k ≤ (buf.take first).length := by
    rw [List.length_take]
    omega
  rw [cut, cut, List.drop_append_of_le_length hlength, List.drop_take, List.drop_drop,
    Nat.add_sub_cancel' (Nat.le_trans hk h)]

/-- The first `k` items stay. -/
theorem drop_resize (hk : k ≤ buf.length) (c : α) :
    (resize buf (n + k) c).drop k = resize (buf.drop k) n c := by
  have hlength : k ≤ (buf.take (n + k)).length := by
    rw [List.length_take]
    omega
  have hmore : n + k - buf.length = n - (buf.drop k).length := by
    rw [List.length_drop]
    omega
  rw [resize, resize, List.drop_append_of_le_length hlength, List.drop_take, Nat.add_sub_cancel,
    hmore]

theorem cut_zero (buf : List α) (last : Nat) : cut buf 0 last = buf.drop last := rfl

end vectors

end Buffer
