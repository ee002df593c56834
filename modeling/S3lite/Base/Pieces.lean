/-
  S3lite.Base.Pieces — parts of a list, by position, and lists that are kept in pieces.

  - `cut_append`: a part of two pieces is a part of the one and a part of the other.
  - `cut_of_le`, `cut_eq_nil`: a part that runs past the end, and one that is empty.
  - `length_cut`: how long it is.
-/
import Mathlib

namespace S3lite

variable {α : Type}

/-- The items from position `i` on, up to position `n`. -/
def cut (i n : Nat) (s : List α) : List α := (s.take n).drop i

theorem cut_append (i n : Nat) (s t : List α) : cut i n (s ++ t) = cut i n s ++ cut (i - s.length) (n - s.length) t := by
  unfold cut
  rw [List.take_append, List.drop_append, List.length_take]
  rcases Nat.le_total n s.length with h | h
  · rw [Nat.sub_eq_zero_of_le h, List.take_zero, List.drop_nil, List.drop_nil]
  · rw [min_eq_right h]

/-- Past the end there is nothing to cut off. -/
theorem cut_of_le {i n : Nat} {s : List α} (h : s.length ≤ n) : cut i n s = cut i s.length s := by
  rw [cut, cut, List.take_of_length_le h, List.take_length]

theorem cut_eq_nil {i n : Nat} {s : List α} (h : s.length ≤ i ∨ n ≤ i) : cut i n s = [] := by
  rw [cut, List.drop_eq_nil_iff, List.length_take]
  omega

theorem cut_all (s : List α) : cut 0 s.length s = s := by
  rw [cut, List.take_length, List.drop_zero]

theorem length_cut {i n : Nat} {s : List α} (h : n ≤ s.length) : (cut i n s).length = n - i := by
  rw [cut, List.length_drop, List.length_take, min_eq_left h]

end S3lite
