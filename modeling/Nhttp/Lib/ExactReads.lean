import Mathlib

/-!
# Programs of exact reads

* `Prog`: a program that asks for pieces of exact lengths and returns a result. It can be run on any
  source of such pieces and be suspended in front of each of them.
* `Prog.parse`: the program on a list that is all there is.
* `parse_bind`: programs one after the other.
-/

namespace ExactReads

/-- A program that reads pieces of exact lengths. -/
inductive Prog (α β : Type) where
  | ret (b : β)
  | need (n : ℕ) (k : List α → Prog α β)

namespace Prog

variable {α β γ : Type}

/-- One program after the other. -/
def bind : Prog α β → (β → Prog α γ) → Prog α γ
  | .ret b, f => f b
  | .need n k, f => .need n fun xs => (k xs).bind f

instance : Monad (Prog α) where
  pure := .ret
  bind := bind

/-- A piece of `n` elements. -/
def take (n : ℕ) : Prog α (List α) := .need n .ret

/-- The result on a list and what is left of it; `none` if the list is too short. -/
def parse : Prog α β → List α → Option (β × List α)
  | .ret b, xs => some (b, xs)
  | .need n k, xs => if n ≤ xs.length then (k (xs.take n)).parse (xs.drop n) else none

@[simp] theorem parse_pure (b : β) (xs : List α) : (pure b : Prog α β).parse xs = some (b, xs) := rfl

theorem parse_bind (p : Prog α β) (f : β → Prog α γ) (xs : List α) :
    (p >>= f).parse xs = (p.parse xs).bind fun r => (f r.1).parse r.2 := by
  change (p.bind f).parse xs = _
  induction p generalizing xs with
  | ret b => rfl
  | need n k ih =>
    rw [bind, parse, parse]
    split_ifs
    · exact ih _ _
    · rfl

theorem parse_bind_eq_some {p : Prog α β} {f : β → Prog α γ} {xs : List α} {r : γ × List α} :
    (p >>= f).parse xs = some r ↔ ∃ b ys, p.parse xs = some (b, ys) ∧ (f b).parse ys = some r := by
  rw [parse_bind, Option.bind_eq_some_iff]
  exact ⟨fun ⟨⟨b, ys⟩, h⟩ => ⟨b, ys, h⟩, fun ⟨b, ys, h⟩ => ⟨(b, ys), h⟩⟩

theorem parse_take (n : ℕ) (xs : List α) :
    (take n).parse xs = if n ≤ xs.length then some (xs.take n, xs.drop n) else none := rfl

theorem parse_take_append {n : ℕ} {xs : List α} (h : xs.length = n) (ys : List α) :
    (take n).parse (xs ++ ys) = some (xs, ys) := by
  subst h
  rw [parse_take, if_pos (by simp), List.take_left, List.drop_left]

theorem parse_take_eq_some {n : ℕ} {xs b ys : List α} :
    (take n).parse xs = some (b, ys) ↔ b.length = n ∧ xs = b ++ ys := by
  constructor
  · intro h
    rw [parse_take] at h
    split_ifs at h with hn
    cases h
    exact ⟨List.length_take_of_le hn, (List.take_append_drop n xs).symm⟩
  · rintro ⟨h, rfl⟩
    exact parse_take_append h ys

end Prog

end ExactReads
