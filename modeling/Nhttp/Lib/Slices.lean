import Mathlib

/-!
# Slices of a list

* `slice xs p n`: up to `n` elements of `xs` from position `p` on.
* `slice_slice`: a slice of a slice; `slice_append`: two slices in a row; `slice_append_drop`: a slice and the rest.
-/

namespace Slices

open List

variable {α : Type}

/-- The elements from position `p` on, at most `n` of them. -/
def slice (xs : List α) (p n : ℕ) : List α := (xs.drop p).take n

variable (xs : List α)

@[simp] theorem length_slice (p n : ℕ) : (slice xs p n).length = min n (xs.length - p) := by
  rw [slice, length_take, length_drop]

theorem slice_zero (n : ℕ) : slice xs 0 n = xs.take n := rfl

theorem slice_of_length_le {xs : List α} {p : ℕ} (h : xs.length ≤ p) (n : ℕ) : slice xs p n = [] := by
  rw [slice, drop_eq_nil_of_le h, take_nil]

theorem slice_min (p n : ℕ) : slice xs p (min n (xs.length - p)) = slice xs p n := by
  unfold slice
  rw [← length_drop, take_eq_take_iff]
  omega

theorem slice_slice (b k p n : ℕ) : slice (slice xs b k) p n = slice xs (b + p) (min n (k - p)) := by
  unfold slice
  rw [drop_take, drop_drop, take_take]

theorem drop_add_length_slice (p m : ℕ) : xs.drop (p + (slice xs p m).length) = (xs.drop p).drop m := by
  rw [length_slice, drop_drop]
  obtain hlt | hle := Nat.lt_or_ge (xs.length - p) m
  · rw [drop_eq_nil_of_le (by omega), drop_eq_nil_of_le (by omega)]
  · rw [Nat.min_eq_left hle]

theorem slice_append_drop (p m : ℕ) :
    slice xs p m ++ xs.drop (p + (slice xs p m).length) = xs.drop p := by
  rw [drop_add_length_slice, slice, take_append_drop]

/-- **Two slices in a row** are one. -/
theorem slice_append (p m n : ℕ) :
    slice xs p m ++ slice xs (p + (slice xs p m).length) n = slice xs p (m + n) := by
  have hdrop := drop_add_length_slice xs p m
  unfold slice at hdrop ⊢
  rw [hdrop, ← take_add]

theorem slice_append_sub (p : ℕ) {m n : ℕ} (h : m ≤ n) :
    slice xs p m ++ slice xs (p + (slice xs p m).length) (n - (slice xs p m).length) = slice xs p n := by
  have hlen := length_slice xs p m
  obtain hlt | hle := Nat.lt_or_ge (xs.length - p) m
  · -- the list has ended
    rw [slice_of_length_le (by omega : xs.length ≤ p + (slice xs p m).length), append_nil, ← slice_min xs p m,
      ← slice_min xs p n]
    congr 1
    omega
  · rw [show n - (slice xs p m).length = n - m by omega, slice_append, Nat.add_sub_cancel' h]

theorem getElem?_slice (p n i : ℕ) : (slice xs p n)[i]? = if i < n then xs[p + i]? else none := by
  rw [slice, getElem?_take, getElem?_drop]

end Slices
