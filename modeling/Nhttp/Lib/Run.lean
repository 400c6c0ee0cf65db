import Mathlib

/-!
# Executions of a step function

* `Exec step C`: executions all of whose steps meet a condition on the state before them.
* `Exec.inv`: what every step keeps holds in every state reached.
* `Exec.of_progress`: if some step always takes a measure down, the goal can be reached.
* `collect`, `gather`: what the steps of a run add up to.
* `runChecked`: execution of a list of events, checking the condition.
-/

namespace Run

variable {σ ε : Type} {step : σ → ε → Option σ} {C : σ → ε → Prop}

/-- `s'` is reached from `s` by the events, each taken in a state where it meets `C`. -/
inductive Exec (step : σ → ε → Option σ) (C : σ → ε → Prop) : σ → List ε → σ → Prop
  | nil (s : σ) : Exec step C s [] s
  | cons {s s₁ s' : σ} {e : ε} {es : List ε} : C s e → step s e = some s₁ →
      Exec step C s₁ es s' → Exec step C s (e :: es) s'

variable {es : List ε} {I : σ → Prop} {s s' : σ}

/-- **Invariants.** -/
theorem Exec.inv {I : σ → Prop} (hI : ∀ s e s', C s e → step s e = some s' → I s → I s')
    {s s' : σ} {es : List ε} (h : Exec step C s es s') (h0 : I s) : I s' := by
  induction h with
  | nil => exact h0
  | cons hc hs _ ih => exact ih (hI _ _ _ hc hs h0)

theorem Exec.mono {C' : σ → ε → Prop} (hC : ∀ s e, C s e → C' s e)
    (h : Exec step C s es s') : Exec step C' s es s' := by
  induction h with
  | nil => exact .nil _
  | cons hc hs _ ih => exact .cons (hC _ _ hc) hs ih

theorem Exec.append {s₁ : σ} {fs : List ε} (h : Exec step C s es s₁) (h' : Exec step C s₁ fs s') :
    Exec step C s (es ++ fs) s' := by
  induction h with
  | nil => exact h'
  | cons hc hs _ ih => exact .cons hc hs (ih h')

theorem Exec.snoc {s₁ : σ} {e : ε} (h : Exec step C s es s₁) (hc : C s₁ e)
    (hs : step s₁ e = some s') : Exec step C s (es ++ [e]) s' :=
  h.append (.cons hc hs (.nil s'))

theorem Exec.snoc_induction {P : List ε → σ → Prop} (nil : P [] s)
    (snoc : ∀ {es : List ε} {s₁ : σ} {e : ε} {s' : σ}, Exec step C s es s₁ → C s₁ e →
      step s₁ e = some s' → P es s₁ → P (es ++ [e]) s')
    (h : Exec step C s es s') : P es s' := by
  have key : ∀ {s₁ s' : σ} {fs : List ε}, Exec step C s₁ fs s' → ∀ es, Exec step C s es s₁ →
      P es s₁ → P (es ++ fs) s' := by
    intro s₁ s' fs hf
    induction hf with
    | nil => exact fun es _ hp => by rwa [List.append_nil]
    | cons hc hs _ ih =>
      intro es hx hp
      have hi := ih (es ++ [_]) (hx.snoc hc hs) (snoc hx hc hs hp)
      rwa [List.append_assoc] at hi
  exact key h [] (.nil s) nil

theorem Exec.of_progress {ι : Type} {r : ι → ι → Prop} (hr : WellFounded r) (m : σ → ι)
    {G : σ → Prop} (hI : ∀ s e s', C s e → step s e = some s' → I s → I s')
    (hp : ∀ s, I s → ¬G s → ∃ e s', C s e ∧ step s e = some s' ∧ r (m s') (m s)) (s : σ)
    (h0 : I s) : ∃ es s', Exec step C s es s' ∧ G s' := by
  induction h : m s using hr.induction generalizing s with
  | h i ih =>
    subst h
    by_cases hg : G s
    · exact ⟨[], s, .nil s, hg⟩
    · obtain ⟨e, s₁, hc, hs, hlt⟩ := hp s h0 hg
      obtain ⟨es, s', hx, hg'⟩ := ih _ hlt s₁ (hI _ _ _ hc hs h0) rfl
      exact ⟨e :: es, s', .cons hc hs hx, hg'⟩

def collect {α : Type} (step : σ → ε → Option σ) (g : σ → σ → List α) : σ → List ε → List α
  | _, [] => []
  | s, e :: es =>
    match step s e with
    | none => []
    | some s' => g s s' ++ collect step g s' es

theorem Exec.collect_append {α : Type} {g : σ → σ → List α} {s₁ : σ} {e : ε}
    (h : Exec step C s es s₁) (hs : step s₁ e = some s') :
    collect step g s (es ++ [e]) = collect step g s es ++ g s₁ s' := by
  induction h with
  | nil => simp [collect, hs]
  | cons _ hs' _ ih => simp [collect, hs', ih hs]

/-- **What goes into a queue comes out of it in order**, up to what is still in it. -/
theorem Exec.collect_balance {α : Type} {q : σ → List α} {g h : σ → σ → List α}
    (hI : ∀ s e s', C s e → step s e = some s' → I s → I s' ∧ q s ++ g s s' = h s s' ++ q s')
    (hx : Exec step C s es s') (h0 : I s) :
    q s ++ collect step g s es = collect step h s es ++ q s' := by
  induction hx with
  | nil => simp [collect]
  | cons hc hs _ ih =>
    obtain ⟨hi, hq⟩ := hI _ _ _ hc hs h0
    simp only [collect, hs]
    rw [← List.append_assoc, hq, List.append_assoc, ih hi, List.append_assoc]

/-- What the events of a run yield, in order. -/
def gather {α : Type} (step : σ → ε → Option σ) (g : σ → ε → List α) : σ → List ε → List α
  | _, [] => []
  | s, e :: es =>
    match step s e with
    | none => []
    | some s' => g s e ++ gather step g s' es

/-- **What is taken out was put in**: `m` counts what is there. -/
theorem Exec.gather_count {α : Type} [DecidableEq α] {m : σ → ℕ} {g h : σ → ε → List α} {a : α}
    (hI : ∀ s e s', C s e → step s e = some s' → I s →
      I s' ∧ (g s e).count a + m s' = (h s e).count a + m s)
    (hx : Exec step C s es s') (h0 : I s) :
    (gather step g s es).count a + m s' = (gather step h s es).count a + m s := by
  induction hx with
  | nil => rfl
  | cons hc hs _ ih =>
    obtain ⟨hi, hm⟩ := hI _ _ _ hc hs h0
    have := ih hi
    simp only [gather, hs, List.count_append]
    omega

/-- Execute events as long as the condition holds and the step is possible. -/
def runChecked (step : σ → ε → Option σ) (C : σ → ε → Prop) [∀ s e, Decidable (C s e)] :
    σ → List ε → Option σ
  | s, [] => some s
  | s, e :: es => if C s e then (step s e).bind fun s => runChecked step C s es else none

theorem exec_of_runChecked [∀ s e, Decidable (C s e)]
    (h : runChecked step C s es = some s') : Exec step C s es s' := by
  induction es generalizing s with
  | nil => cases h; exact .nil _
  | cons e es ih =>
    rw [runChecked] at h
    split_ifs at h with hc
    obtain ⟨s₁, hs, h⟩ := Option.bind_eq_some_iff.mp h
    exact .cons hc hs (ih h)

theorem Exec.runChecked_eq [∀ s e, Decidable (C s e)]
    (h : Exec step C s es s') : runChecked step C s es = some s' := by
  induction h with
  | nil => rfl
  | cons hc hs _ ih => simpa [runChecked, hc, hs] using ih

/-- An execution by evaluation, seen through a function of the last state. -/
theorem exists_exec [∀ s e, Decidable (C s e)] {α : Type} {f : σ → α} {a : α}
    (h : (runChecked step C s es).map f = some a) : ∃ s', Exec step C s es s' ∧ f s' = a := by
  obtain ⟨s', hr, hf⟩ := Option.map_eq_some_iff.mp h
  exact ⟨s', exec_of_runChecked hr, hf⟩

end Run
