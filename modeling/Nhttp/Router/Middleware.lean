import Nhttp.Lib.Tasks

/-!
# Middleware stacks

* `Middleware`: what a filter makes of the rest of the chain; the request is part of the state.
* `MiddlewareStack.prepend`, `append`, `invoke`, `handle`: `middleware_stack`.
* `StackCall`, `build`: stacks made by calls of `prepend` and `append`.
-/

namespace Nhttp.Router

variable {σ ε ρ μ ν : Type}

abbrev Middleware (σ ε ρ : Type) := AsyncTask σ ε ρ → AsyncTask σ ε ρ

namespace MiddlewareStack

def prepend (stack : List μ) (m : μ) : List μ := m :: stack

def append (stack : List μ) (m : μ) : List μ := stack ++ [m]

def invoke (stack : List (Middleware σ ε ρ)) (finalTarget : AsyncTask σ ε ρ) (index : ℕ) : AsyncTask σ ε ρ :=
  if h : index < stack.length then stack.get ⟨index, h⟩ (invoke stack finalTarget (index + 1)) else finalTarget
termination_by stack.length - index

def handle (stack : List (Middleware σ ε ρ)) (finalTarget : AsyncTask σ ε ρ) : AsyncTask σ ε ρ :=
  invoke stack finalTarget 0

variable (finalTarget : AsyncTask σ ε ρ)

theorem invoke_of_lt {stack : List (Middleware σ ε ρ)} {index : ℕ} (h : index < stack.length) :
    invoke stack finalTarget index = stack.get ⟨index, h⟩ (invoke stack finalTarget (index + 1)) := by
  rw [invoke, dif_pos h]

theorem invoke_of_le {stack : List (Middleware σ ε ρ)} {index : ℕ} (h : stack.length ≤ index) :
    invoke stack finalTarget index = finalTarget := by
  rw [invoke, dif_neg (Nat.not_lt.mpr h)]

theorem invoke_cons_succ (m : Middleware σ ε ρ) (stack : List (Middleware σ ε ρ)) (index : ℕ) :
    invoke (m :: stack) finalTarget (index + 1) = invoke stack finalTarget index := by
  induction hn : stack.length - index generalizing index with
  | zero =>
    have h : stack.length ≤ index := by omega
    rw [invoke_of_le _ h, invoke_of_le _ (Nat.succ_le_succ h)]
  | succ n ih =>
    have h : index < stack.length := by omega
    rw [invoke_of_lt _ h, invoke_of_lt _ (Nat.succ_lt_succ h), ih (index + 1) (by omega)]
    rfl

theorem handle_nil : handle [] finalTarget = finalTarget := invoke_of_le _ (Nat.le_refl 0)

theorem handle_cons (m : Middleware σ ε ρ) (stack : List (Middleware σ ε ρ)) :
    handle (m :: stack) finalTarget = m (handle stack finalTarget) := by
  rw [handle, invoke_of_lt _ (Nat.zero_lt_succ _), invoke_cons_succ]
  rfl

end MiddlewareStack

inductive StackCall (μ : Type) where
  | prepend (m : μ)
  | append (m : μ)

namespace StackCall

def middleware : StackCall μ → μ
  | .prepend m => m
  | .append m => m

def apply (stack : List μ) : StackCall μ → List μ
  | .prepend m => MiddlewareStack.prepend stack m
  | .append m => MiddlewareStack.append stack m

def map (f : μ → ν) : StackCall μ → StackCall ν
  | .prepend m => .prepend (f m)
  | .append m => .append (f m)

def build (calls : List (StackCall μ)) : List μ := calls.foldl apply []

theorem build_concat (calls : List (StackCall μ)) (c : StackCall μ) : build (calls ++ [c]) = c.apply (build calls) := by
  rw [build, List.foldl_append]
  rfl

theorem build_map (f : μ → ν) (calls : List (StackCall μ)) : build (calls.map (map f)) = (build calls).map f := by
  induction calls using List.reverseRecOn with
  | nil => rfl
  | append_singleton calls c ih =>
    rw [List.map_append, List.map_singleton, build_concat, build_concat, ih]
    cases c with
    | prepend m => rfl
    | append m => simp [apply, map, MiddlewareStack.append]

theorem build_perm (calls : List (StackCall μ)) : (build calls).Perm (calls.map middleware) := by
  induction calls using List.reverseRecOn with
  | nil => exact .refl _
  | append_singleton calls c ih =>
    rw [build_concat, List.map_append, List.map_singleton]
    cases c with
    | prepend m => exact (ih.cons m).trans (List.perm_append_singleton m _).symm
    | append m => exact ih.append_right [m]

end StackCall

end Nhttp.Router
