import Mathlib

/-!
# Computations that may throw

* `AsyncTask`: a computation on a state that may throw; what it has done to the state stays when it does.
* `exec_bind`, `exec_tryCatch`: how a run goes on after a result and after an exception.
* `recording`: a computation that leaves a note about how it ended.
-/

/-- A computation on states `σ` with exceptions `ε`. -/
abbrev AsyncTask (σ ε α : Type) := ExceptT ε (StateM σ) α

namespace AsyncTask

variable {σ ε α β : Type}

def exec (t : AsyncTask σ ε α) (s : σ) : Except ε α × σ := t.run.run s

@[simp] theorem exec_pure (a : α) (s : σ) : exec (pure a : AsyncTask σ ε α) s = (.ok a, s) := rfl

@[simp] theorem exec_throw (e : ε) (s : σ) : exec (throw e : AsyncTask σ ε α) s = (.error e, s) := rfl

theorem exec_bind (t : AsyncTask σ ε α) (f : α → AsyncTask σ ε β) (s : σ) :
    exec (t >>= f) s = match t.exec s with
      | (.ok a, s) => (f a).exec s
      | (.error e, s) => (.error e, s) := by
  change (ExceptT.bindCont f (t.exec s).1 : StateM σ (Except ε β)) (t.exec s).2 = _
  obtain ⟨e | a, s'⟩ := t.exec s
  · rfl
  · rfl

theorem exec_tryCatch (t : AsyncTask σ ε α) (handler : ε → AsyncTask σ ε α) (s : σ) :
    exec (tryCatch t handler) s = match t.exec s with
      | (.ok a, s) => (.ok a, s)
      | (.error e, s) => (handler e).exec s := by
  change (match (t.exec s).1 with
    | .ok a => (pure (.ok a) : StateM σ (Except ε α))
    | .error e => handler e) (t.exec s).2 = _
  obtain ⟨e | a, s'⟩ := t.exec s
  · rfl
  · rfl

/-- The computation, with a note behind those taken before. -/
def recording (note : Except ε α → β) (t : AsyncTask σ ε α) : AsyncTask (σ × List β) ε α := fun s =>
  ((t.exec s.1).1, ((t.exec s.1).2, s.2 ++ [note (t.exec s.1).1]))

@[simp] theorem exec_recording (note : Except ε α → β) (t : AsyncTask σ ε α) (s : σ) (notes : List β) :
    exec (recording note t) (s, notes) = ((t.exec s).1, ((t.exec s).2, notes ++ [note (t.exec s).1])) := rfl

end AsyncTask
