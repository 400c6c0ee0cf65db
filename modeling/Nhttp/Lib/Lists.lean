import Mathlib

/-!
# Lists in which one element changes

* `map_modify_of_keeps`: a change that a function does not see.
* `countP_modify_add`, `countP_set_add`: how a count changes with one element.
-/

namespace Lists

theorem map_modify_of_keeps {α β : Type} {g : α → β} {f : α → α} (h : ∀ a, g (f a) = g a)
    (l : List α) (i : ℕ) : (l.modify i f).map g = l.map g := by
  refine List.ext_getElem? fun j => ?_
  rw [List.getElem?_map, List.getElem?_map, List.getElem?_modify]
  cases l[j]? with
  | none => rfl
  | some a =>
    by_cases hj : i = j
    · simp [hj, h]
    · simp [hj]

theorem countP_modify_add {α : Type} {l : List α} {t : ℕ} {x : α} (p : α → Bool) (g : α → α)
    (h : l[t]? = some x) :
    (l.modify t g).countP p + (if p x then 1 else 0) = l.countP p + if p (g x) then 1 else 0 := by
  induction l generalizing t with
  | nil => simp at h
  | cons a l ih =>
    cases t with
    | zero =>
      cases h
      simp [List.countP_cons]
      omega
    | succ t =>
      have := ih h
      simp only [List.modify_succ_cons, List.countP_cons]
      omega

theorem countP_set_add {α : Type} {l : List α} {t : ℕ} {x : α} (p : α → Bool) (y : α)
    (h : l[t]? = some x) :
    (l.set t y).countP p + (if p x then 1 else 0) = l.countP p + if p y then 1 else 0 := by
  rw [List.set_eq_modify]
  exact countP_modify_add p (fun _ => y) h

end Lists
