import Mathlib

/-!
# Searching for a delimiter

* `find pat xs`: the position of the first occurrence.
* `find_eq_some_iff`, `find_eq_none_iff`: what it returns.
* **`find_delimiter`**: a text that does not contain the delimiter is followed by it. In every beginning of
  this, the delimiter is found at the end of the text, once it is there as a whole.
-/

namespace Find

open List

variable {α : Type} [DecidableEq α]

/-- The position of the first occurrence of `pat`. -/
def find (pat : List α) : List α → Option ℕ
  | [] => if pat = [] then some 0 else none
  | x :: xs => if pat <+: x :: xs then some 0 else (find pat xs).map (· + 1)

theorem find_eq_some_iff {pat xs : List α} {i : ℕ} :
    find pat xs = some i ↔ i ≤ xs.length ∧ pat <+: xs.drop i ∧ ∀ j < i, ¬pat <+: xs.drop j := by
  induction xs generalizing i with
  | nil =>
    rw [find]
    split_ifs with h
    · subst h
      simp only [Option.some.injEq, length_nil, drop_nil, nil_prefix, not_true]
      constructor
      · rintro rfl
        exact ⟨Nat.le_refl _, trivial, fun j hj => absurd hj (Nat.not_lt_zero j)⟩
      · exact fun hi => (Nat.le_zero.mp hi.1).symm
    · simp [h]
  | cons x xs ih =>
    rw [find]
    split_ifs with h
    · constructor
      · rintro ⟨⟩
        exact ⟨Nat.zero_le _, h, fun j hj => absurd hj (Nat.not_lt_zero j)⟩
      · rintro ⟨-, -, hfirst⟩
        cases i with
        | zero => rfl
        | succ i => exact absurd h (hfirst 0 (Nat.succ_pos i))
    · cases i with
      | zero => simp [h]
      | succ i =>
        rw [Option.map_eq_some_iff]
        constructor
        · rintro ⟨k, hk, he⟩
          cases he
          obtain ⟨hle, hp, hfirst⟩ := ih.mp hk
          refine ⟨Nat.succ_le_succ hle, hp, fun j hj => ?_⟩
          cases j with
          | zero => exact h
          | succ j => exact hfirst j (Nat.lt_of_succ_lt_succ hj)
        · rintro ⟨hle, hp, hfirst⟩
          refine ⟨i, ih.mpr ⟨Nat.le_of_succ_le_succ hle, hp, fun j hj => ?_⟩, rfl⟩
          exact hfirst (j + 1) (Nat.succ_lt_succ hj)

theorem find_eq_none_iff {pat xs : List α} : find pat xs = none ↔ ∀ i ≤ xs.length, ¬pat <+: xs.drop i := by
  induction xs with
  | nil => simp [find]
  | cons x xs ih =>
    rw [find]
    split_ifs with h
    · refine iff_of_false (by simp) fun hall => hall 0 (Nat.zero_le _) h
    · rw [Option.map_eq_none_iff, ih]
      constructor
      · intro hall i hi
        cases i with
        | zero => exact h
        | succ i => exact hall i (Nat.le_of_succ_le_succ hi)
      · exact fun hall i hi => hall (i + 1) (Nat.succ_le_succ hi)

variable {c : α} {pat body t buf : List α}

omit [DecidableEq α] in
/-- No occurrence starts within the text. -/
theorem length_le_of_occurrence (hc : c ∉ pat) (hbody : ¬(c :: pat) <:+: body) {i : ℕ}
    (h : (c :: pat) <+: (body ++ (c :: pat) ++ t).drop i) : body.length ≤ i := by
  by_contra hle
  have hlt := Nat.lt_of_not_le hle
  rw [append_assoc, drop_append_of_le_length (Nat.le_of_lt hlt)] at h
  by_cases hlen : (c :: pat).length ≤ (body.drop i).length
  · have hin : (c :: pat) <+: body.drop i := prefix_of_prefix_length_le h (prefix_append _ _) hlen
    exact hbody (hin.isInfix.trans (drop_suffix i body).isInfix)
  · -- position `body.length - i` of the occurrence is the first element of the delimiter
    have hpos : 0 < (body.drop i).length := by
      rw [length_drop]
      omega
    obtain ⟨k, hk⟩ : ∃ k, (body.drop i).length = k + 1 := ⟨_, (Nat.succ_pred_eq_of_pos hpos).symm⟩
    obtain ⟨u, hu⟩ := h
    have hget := congrArg (·[k + 1]?) hu
    rw [getElem?_append_left (by omega), getElem?_append_right (by omega), hk, Nat.sub_self,
      getElem?_cons_succ] at hget
    exact hc (mem_of_getElem? hget)

/-- **A delimiter is found where it stands**, in any beginning of the text and the delimiter that has it. -/
theorem find_delimiter (hc : c ∉ pat) (hbody : ¬(c :: pat) <:+: body)
    (hbuf : buf <+: body ++ (c :: pat) ++ t) :
    find (c :: pat) buf = if body.length + (c :: pat).length ≤ buf.length then some body.length else none := by
  have hocc : ∀ {i : ℕ}, (c :: pat) <+: buf.drop i → body.length ≤ i := fun hi =>
    length_le_of_occurrence hc hbody (hi.trans (hbuf.drop _))
  split_ifs with hlen
  · -- the whole delimiter is there
    have hpre : body ++ (c :: pat) <+: buf :=
      prefix_of_prefix_length_le (prefix_append _ _) hbuf (by rwa [length_append])
    obtain ⟨u, rfl⟩ := hpre
    refine find_eq_some_iff.mpr ⟨by simp, ?_, fun j hj hp => ?_⟩
    · rw [append_assoc, drop_left]
      exact prefix_append _ _
    · exact absurd (hocc hp) (Nat.not_le_of_lt hj)
  · refine find_eq_none_iff.mpr fun i _ hp => hlen ?_
    have hle := hp.length_le
    have hi := hocc hp
    rw [length_drop] at hle
    have hpos : 0 < (c :: pat).length := Nat.succ_pos _
    omega

end Find
