import Mathlib

/-!
# The first candidate of the highest rank

* `firstMax f rank l`: a pass over `l` that keeps the first element with a result, and replaces it by
  a later one only if that is ranked strictly higher.
* `firstMax_eq_some_iff`, `firstMax_eq_none_iff`: which element is kept.
-/

namespace FirstMax

variable {α β γ : Type} [LinearOrder γ]

/-- One turn of the pass. -/
def keep (rank : β → γ) (best : Option (α × β)) (a : α) (b : β) : Option (α × β) :=
  match best with
  | none => some (a, b)
  | some (a', b') => if rank b' < rank b then some (a, b) else some (a', b')

/-- The first element of the highest rank, with its result. -/
def firstMax (f : α → Option β) (rank : β → γ) (l : List α) : Option (α × β) :=
  l.foldl (fun best a => match f a with
    | none => best
    | some b => keep rank best a b) none

variable {f : α → Option β} {rank : β → γ}

/-- `a` is an element with the result `b`; those before it are ranked lower, and none is ranked
higher. -/
def IsFirstMax (f : α → Option β) (rank : β → γ) (l : List α) (a : α) (b : β) : Prop :=
  ∃ l₁ l₂, l = l₁ ++ a :: l₂ ∧ f a = some b ∧ (∀ x ∈ l₁, ∀ y, f x = some y → rank y < rank b) ∧
    ∀ x ∈ l₂, ∀ y, f x = some y → rank y ≤ rank b

variable {a : α} {b : β} {l : List α}

theorem IsFirstMax.rank_le (h : IsFirstMax f rank l a b) {x : α}
    (hx : x ∈ l) {y : β} (hy : f x = some y) : rank y ≤ rank b := by
  obtain ⟨l₁, l₂, rfl, ha, h1, h2⟩ := h
  obtain hx | hx := List.mem_append.mp hx
  · exact le_of_lt (h1 x hx y hy)
  · obtain rfl | hx := List.mem_cons.mp hx
    · rw [ha] at hy
      cases hy
      exact le_rfl
    · exact h2 x hx y hy

theorem firstMax_append_singleton (l : List α) (a : α) :
    firstMax f rank (l ++ [a]) = match f a with
      | none => firstMax f rank l
      | some b => keep rank (firstMax f rank l) a b := by
  rw [firstMax, List.foldl_append]
  rfl

/-- What the pass keeps: nothing if there are no results, or the first maximum. -/
theorem firstMax_spec (f : α → Option β) (rank : β → γ) (l : List α) :
    (firstMax f rank l = none ∧ ∀ x ∈ l, f x = none) ∨
      ∃ a b, firstMax f rank l = some (a, b) ∧ IsFirstMax f rank l a b := by
  induction l using List.reverseRecOn with
  | nil => exact .inl ⟨rfl, by simp⟩
  | append_singleton l a ih =>
    rw [firstMax_append_singleton]
    cases ha : f a with
    | none =>
      obtain ⟨h, hn⟩ | ⟨c, d, h, l₁, l₂, rfl, hc, h1, h2⟩ := ih
      · refine .inl ⟨h, fun x hx => ?_⟩
        obtain hx | hx := List.mem_append.mp hx
        · exact hn x hx
        · rwa [List.mem_singleton.mp hx]
      · refine .inr ⟨c, d, h, l₁, l₂ ++ [a], by simp, hc, h1, fun x hx y hy => ?_⟩
        obtain hx | hx := List.mem_append.mp hx
        · exact h2 x hx y hy
        · rw [List.mem_singleton.mp hx, ha] at hy
          cases hy
    | some b =>
      right
      obtain ⟨h, hn⟩ | ⟨c, d, h, hmax⟩ := ih
      · refine ⟨a, b, by rw [h]; rfl, l, [], rfl, ha, fun x hx y hy => ?_, by simp⟩
        rw [hn x hx] at hy
        cases hy
      · dsimp only
        rw [h, keep]
        by_cases hlt : rank d < rank b
        · refine ⟨a, b, if_pos hlt, l, [], rfl, ha, fun x hx y hy => ?_, by simp⟩
          exact lt_of_le_of_lt (hmax.rank_le hx hy) hlt
        · obtain ⟨l₁, l₂, rfl, hc, h1, h2⟩ := hmax
          refine ⟨c, d, if_neg hlt, l₁, l₂ ++ [a], by simp, hc, h1, fun x hx y hy => ?_⟩
          obtain hx | hx := List.mem_append.mp hx
          · exact h2 x hx y hy
          · rw [List.mem_singleton.mp hx, ha] at hy
            cases hy
            exact not_lt.mp hlt

theorem firstMax_eq_none_iff : firstMax f rank l = none ↔ ∀ x ∈ l, f x = none := by
  obtain ⟨h, hn⟩ | ⟨a, b, h, l₁, l₂, rfl, ha, -, -⟩ := firstMax_spec f rank l
  · exact iff_of_true h hn
  · refine iff_of_false (by rw [h]; simp) fun hn => ?_
    rw [hn a (by simp)] at ha
    cases ha

theorem isFirstMax_of_firstMax (h : firstMax f rank l = some (a, b)) :
    IsFirstMax f rank l a b := by
  obtain ⟨hn, -⟩ | ⟨c, d, hs, hmax⟩ := firstMax_spec f rank l
  · rw [hn] at h
    cases h
  · rw [hs] at h
    cases h
    exact hmax

theorem places_eq_or_before {l₁ l₂ m₁ m₂ : List α} {b : α} (h : l₁ ++ a :: l₂ = m₁ ++ b :: m₂) :
    a = b ∨ (a ∈ m₁ ∧ b ∈ l₂) ∨ (b ∈ l₁ ∧ a ∈ m₂) := by
  obtain ⟨t, rfl, ht⟩ | ⟨t, rfl, ht⟩ := List.append_eq_append_iff.mp h
  · cases t with
    | nil => exact .inl (List.cons.inj ht).1
    | cons x t =>
      obtain ⟨rfl, rfl⟩ := List.cons.inj ht
      exact .inr (.inl (by simp))
  · cases t with
    | nil => exact .inl (List.cons.inj ht).1.symm
    | cons x t =>
      obtain ⟨rfl, rfl⟩ := List.cons.inj ht
      exact .inr (.inr (by simp))

theorem IsFirstMax.unique {a' : α} {b' : β} (h : IsFirstMax f rank l a b)
    (h' : IsFirstMax f rank l a' b') : a = a' ∧ b = b' := by
  obtain ⟨l₁, l₂, rfl, ha, h1, h2⟩ := h
  obtain ⟨m₁, m₂, he, ha', h1', h2'⟩ := h'
  obtain rfl | ⟨hm, hl⟩ | ⟨hl, hm⟩ := places_eq_or_before he
  · rw [ha] at ha'
    exact ⟨rfl, Option.some.inj ha'⟩
  · exact absurd (h1' a hm b ha) (not_lt.mpr (h2 a' hl b' ha'))
  · exact absurd (h1 a' hl b' ha') (not_lt.mpr (h2' a hm b ha))

theorem firstMax_eq_some_iff :
    firstMax f rank l = some (a, b) ↔ IsFirstMax f rank l a b := by
  refine ⟨isFirstMax_of_firstMax, fun h => ?_⟩
  obtain ⟨-, hn⟩ | ⟨c, d, hs, hmax⟩ := firstMax_spec f rank l
  · obtain ⟨l₁, l₂, rfl, ha, -, -⟩ := h
    rw [hn a (by simp)] at ha
    cases ha
  · obtain ⟨rfl, rfl⟩ := h.unique hmax
    exact hs

end FirstMax
