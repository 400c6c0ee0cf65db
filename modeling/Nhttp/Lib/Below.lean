import Mathlib

/-!
# Prefixes that end at a separator

* `Below sep k p`: `p` is `k`, or goes on after `k` with a separator.
* `below_iff`: what follows `k`; `append_left`, `of_append`: a common front makes no difference.
-/

variable {α : Type}

/-- `p` is `k` or lies below it. -/
def Below (sep : α) (k p : List α) : Prop := p = k ∨ k ++ [sep] <+: p

namespace Below

variable {sep : α} {a k p q : List α}

instance [DecidableEq α] : Decidable (Below sep k p) := inferInstanceAs (Decidable (_ ∨ _))

theorem refl (k : List α) : Below sep k k := .inl rfl

theorem below_iff : Below sep k p ↔ ∃ t, p = k ++ t ∧ (t = [] ∨ t.head? = some sep) := by
  constructor
  · rintro (rfl | ⟨t, rfl⟩)
    · exact ⟨[], (List.append_nil _).symm, .inl rfl⟩
    · exact ⟨sep :: t, by simp, .inr rfl⟩
  · rintro ⟨t, rfl, rfl | ht⟩
    · exact .inl (List.append_nil _)
    · cases t with
      | nil => cases ht
      | cons c t =>
        obtain rfl : c = sep := Option.some.inj ht
        exact .inr ⟨t, by simp⟩

theorem append_left (a : List α) (h : Below sep k p) : Below sep (a ++ k) (a ++ p) := by
  obtain ⟨t, rfl, ht⟩ := below_iff.mp h
  exact below_iff.mpr ⟨t, (List.append_assoc a k t).symm, ht⟩

theorem of_append (h : Below sep (a ++ k) (a ++ p)) : Below sep k p := by
  obtain ⟨t, he, ht⟩ := below_iff.mp h
  rw [List.append_assoc] at he
  exact below_iff.mpr ⟨t, List.append_cancel_left he, ht⟩

theorem isPrefix (h : Below sep k p) : k <+: p := by
  obtain ⟨t, rfl, -⟩ := below_iff.mp h
  exact List.prefix_append k t

theorem length_le (h : Below sep k p) : k.length ≤ p.length := h.isPrefix.length_le

theorem trans (h : Below sep k p) (h' : Below sep p q) : Below sep k q := by
  obtain ⟨t, rfl, ht⟩ := below_iff.mp h
  obtain ⟨u, rfl, hu⟩ := below_iff.mp h'
  refine below_iff.mpr ⟨t ++ u, by simp, ?_⟩
  cases t with
  | nil => exact hu
  | cons c t =>
    refine .inr ?_
    obtain ht | ht := ht
    · cases ht
    · exact ht

theorem antisymm (h : Below sep k p) (h' : Below sep p k) : k = p :=
  h.isPrefix.eq_of_length (Nat.le_antisymm h.length_le h'.length_le)

end Below
