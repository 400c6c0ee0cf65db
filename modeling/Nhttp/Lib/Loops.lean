import Mathlib

/-!
# Loops and the states they visit

* `Loop`: a step function with a measure that goes down; `Loop.run`, `Loop.visited`: its result and its states.
* `visited_inv`: the invariant rule, for loops whose states all meet a condition.
* `exists_last`: the result is that of the last state; `eq_run`: a function that follows the steps is the loop.
-/

namespace Loops

/-- From a state to the next one, or to the result. -/
structure Loop (σ ρ : Type) where
  step : σ → σ ⊕ ρ
  measure : σ → ℕ
  decreasing : ∀ {s s'}, step s = .inl s' → measure s' < measure s

namespace Loop

variable {σ ρ : Type} (l : Loop σ ρ)

def run (s : σ) : ρ :=
  match _h : l.step s with
  | .inl s' => run s'
  | .inr r => r
termination_by l.measure s
decreasing_by exact l.decreasing _h

/-- The states at which the loop body starts. -/
def visited (s : σ) : List σ :=
  s :: match _h : l.step s with
    | .inl s' => visited s'
    | .inr _ => []
termination_by l.measure s
decreasing_by exact l.decreasing _h

variable {l} {s s' : σ} {r : ρ}

theorem run_of_inl (h : l.step s = .inl s') : l.run s = l.run s' := by
  rw [run]
  split
  · next h' =>
    rw [h] at h'
    cases h'
    rfl
  · next h' =>
    rw [h] at h'
    cases h'

theorem run_of_inr (h : l.step s = .inr r) : l.run s = r := by
  rw [run]
  split
  · next h' =>
    rw [h] at h'
    cases h'
  · next h' =>
    rw [h] at h'
    cases h'
    rfl

theorem visited_of_inl (h : l.step s = .inl s') : l.visited s = s :: l.visited s' := by
  rw [visited]
  split
  · next h' =>
    rw [h] at h'
    cases h'
    rfl
  · next h' =>
    rw [h] at h'
    cases h'

theorem visited_of_inr (h : l.step s = .inr r) : l.visited s = [s] := by
  rw [visited]
  split
  · next h' =>
    rw [h] at h'
    cases h'
  · rfl

variable (l) in
theorem induct {P : σ → Prop} (hinl : ∀ s s', l.step s = .inl s' → P s' → P s)
    (hinr : ∀ s r, l.step s = .inr r → P s) (s : σ) : P s := by
  induction hn : l.measure s using Nat.strongRecOn generalizing s with
  | ind n ih =>
    cases h : l.step s with
    | inl s' =>
      refine hinl s s' h (ih _ ?_ s' rfl)
      rw [← hn]
      exact l.decreasing h
    | inr r => exact hinr s r h

/-- **Invariants**: what every step from a state that meets `C` keeps, if all states meet `C`. -/
theorem visited_inv {I C : σ → Prop} (hstep : ∀ s s', I s → C s → l.step s = .inl s' → I s') {s : σ} (h : I s)
    (hC : ∀ t ∈ l.visited s, C t) : ∀ t ∈ l.visited s, I t := by
  induction s using l.induct with
  | hinl s s' hs ih =>
    rw [visited_of_inl hs] at hC ⊢
    obtain ⟨hhead, htail⟩ := List.forall_mem_cons.mp hC
    exact List.forall_mem_cons.mpr ⟨h, ih (hstep s s' h hhead hs) htail⟩
  | hinr s r hs =>
    rw [visited_of_inr hs]
    exact List.forall_mem_singleton.mpr h

theorem exists_last (s : σ) : ∃ t ∈ l.visited s, l.step t = .inr (l.run s) := by
  induction s using l.induct with
  | hinl s s' hs ih =>
    obtain ⟨t, ht, hlast⟩ := ih
    rw [visited_of_inl hs, run_of_inl hs]
    exact ⟨t, List.mem_cons_of_mem _ ht, hlast⟩
  | hinr s r hs =>
    rw [visited_of_inr hs, run_of_inr hs]
    exact ⟨s, List.mem_singleton_self s, hs⟩

/-- **A function that follows the steps** is the loop. -/
theorem eq_run {f : σ → ρ} (hinl : ∀ s s', l.step s = .inl s' → f s = f s')
    (hinr : ∀ s r, l.step s = .inr r → f s = r) (s : σ) : f s = l.run s := by
  induction s using l.induct with
  | hinl s s' hs ih => rw [hinl s s' hs, run_of_inl hs, ih]
  | hinr s r hs => rw [hinr s r hs, run_of_inr hs]

end Loop

end Loops
