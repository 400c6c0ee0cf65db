import Nhttp.Lib.Tasks

/-!
# Plugins at the start and the end of the server

* `syncWait`, `runOnFreshContext`: the hooks run on a thread of their own, while the caller waits.
* `HelperThread.leave`: a frame is left with its thread, which must not be joinable any more.
* `initAll`, `deinitAll`: `plugin_manager`.
* **`hooks_rethrow_iff`**: what becomes of an exception of a hook.
-/

namespace Nhttp.Plugins

open AsyncTask

variable {σ ε : Type}

/-- The hooks of a plugin at the start and the end of the server. -/
structure LifecyclePlugin (σ ε : Type) where
  onInit : AsyncTask σ ε Unit
  onDeinit : AsyncTask σ ε Unit

/-- `sync_wait`, with the exception that `sync_wait_driver_void` leaves in `eptr`. -/
def syncWait (t : AsyncTask σ ε Unit) : AsyncTask σ ε Unit := do
  let eptr ← tryCatch (do t; pure none) (fun e => pure (some e))
  match eptr with
  | some e => throw e
  | none => pure ()

inductive CallEnd (ε : Type) where
  | returned
  | threw (e : ε)
  | terminated
deriving DecidableEq, Repr

structure HelperThread where
  stopped : Bool := false
  joinable : Bool := true
deriving DecidableEq, Repr

/-- The destructor of a thread, when the frame that owns it is left. -/
def HelperThread.leave (runner : HelperThread) (ending : CallEnd ε) : CallEnd ε :=
  if runner.joinable then .terminated else ending

/-- `run_on_fresh_context`: how it ends, its thread, and the state the body leaves. -/
def runOnFreshContext (body : AsyncTask σ ε Unit) (s : σ) : CallEnd ε × HelperThread × σ :=
  let runner : HelperThread := {}
  match (syncWait body).exec s with
  | (.ok _, s) =>
    -- `ctx.stop()` and `runner.join()`
    let runner := { runner with stopped := true }
    let runner := { runner with joinable := false }
    (runner.leave .returned, runner, s)
  -- the exception leaves the frame before either
  | (.error e, s) => (runner.leave (.threw e), runner, s)

/-- The hooks one after the other, each with the number of its plugin, which is noted. -/
def callHooks : List (AsyncTask σ ε Unit × ℕ) → AsyncTask (σ × List ℕ) ε Unit
  | [] => pure ()
  | (hook, i) :: hooks => do
    recording (fun _ => i) hook
    callHooks hooks

structure HooksRun (ε : Type) where
  ending : CallEnd ε
  runner : Option HelperThread
  called : List ℕ
deriving DecidableEq, Repr

def runAll (hooks : List (AsyncTask σ ε Unit × ℕ)) (s : σ) : HooksRun ε :=
  if hooks.isEmpty then ⟨.returned, none, []⟩
  else
    let r := runOnFreshContext (callHooks hooks) (s, [])
    ⟨r.1, some r.2.1, r.2.2.2⟩

/-- The hooks of `init_all` in the order of their calls, with the positions of the plugins. -/
def initHooks (plugins : List (LifecyclePlugin σ ε)) : List (AsyncTask σ ε Unit × ℕ) :=
  plugins.zipIdx.map fun p => (p.1.onInit, p.2)

def deinitHooks (plugins : List (LifecyclePlugin σ ε)) : List (AsyncTask σ ε Unit × ℕ) :=
  plugins.zipIdx.reverse.map fun p => (p.1.onDeinit, p.2)

/-- `plugin_manager::init_all`. -/
def initAll (plugins : List (LifecyclePlugin σ ε)) (s : σ) : HooksRun ε := runAll (initHooks plugins) s

/-- `plugin_manager::deinit_all`. -/
def deinitAll (plugins : List (LifecyclePlugin σ ε)) (s : σ) : HooksRun ε := runAll (deinitHooks plugins) s

/-! ## Where a hook throws -/

def firstThrow : List (AsyncTask σ ε Unit × ℕ) → σ → Option (ℕ × ε)
  | [], _ => none
  | (hook, _) :: hooks, s =>
    match hook.exec s with
    | (.error e, _) => some (0, e)
    | (.ok _, s) => (firstThrow hooks s).map fun r => (r.1 + 1, r.2)

theorem exec_syncWait (t : AsyncTask σ ε Unit) (s : σ) : (syncWait t).exec s = t.exec s := by
  rw [syncWait, exec_bind, exec_tryCatch, exec_bind]
  obtain ⟨e | _, s⟩ := t.exec s
  · rfl
  · rfl

theorem exec_callHooks (hooks : List (AsyncTask σ ε Unit × ℕ)) (s : σ) (called : List ℕ) :
    ∃ s', (callHooks hooks).exec (s, called) = match firstThrow hooks s with
      | some (i, e) => (.error e, s', called ++ (hooks.take (i + 1)).map Prod.snd)
      | none => (.ok (), s', called ++ hooks.map Prod.snd) := by
  induction hooks generalizing s called with
  | nil => exact ⟨s, by simp [callHooks, firstThrow]⟩
  | cons hook hooks ih =>
    obtain ⟨hook, i⟩ := hook
    rw [callHooks, exec_bind, exec_recording, firstThrow]
    obtain ⟨e | _, s⟩ := hook.exec s
    · exact ⟨s, by simp⟩
    · obtain ⟨s', hs⟩ := ih s (called ++ [i])
      refine ⟨s', ?_⟩
      dsimp only
      rw [hs]
      cases firstThrow hooks s with
      | none => simp
      | some r => simp

theorem runAll_of_throw {hooks : List (AsyncTask σ ε Unit × ℕ)} {s : σ} {i : ℕ} {e : ε}
    (h : firstThrow hooks s = some (i, e)) :
    runAll hooks s = ⟨.terminated, some {}, (hooks.take (i + 1)).map Prod.snd⟩ := by
  obtain ⟨s', hs⟩ := exec_callHooks hooks s []
  cases hooks with
  | nil => cases h
  | cons hook hooks =>
    rw [h] at hs
    rw [runAll, List.isEmpty_cons, if_neg Bool.false_ne_true, runOnFreshContext, exec_syncWait, hs]
    rfl

theorem runAll_of_none {hooks : List (AsyncTask σ ε Unit × ℕ)} {s : σ} (h : firstThrow hooks s = none) :
    runAll hooks s = ⟨.returned, if hooks.isEmpty then none else some { stopped := true, joinable := false },
      hooks.map Prod.snd⟩ := by
  obtain ⟨s', hs⟩ := exec_callHooks hooks s []
  cases hooks with
  | nil => rfl
  | cons hook hooks =>
    rw [h] at hs
    rw [runAll, List.isEmpty_cons, if_neg Bool.false_ne_true, runOnFreshContext, exec_syncWait, hs]
    rfl

/-- The exception of a hook reaches the caller after the thread was joined, and no later hook is called. -/
def Rethrows (hooks : List (AsyncTask σ ε Unit × ℕ)) (s : σ) (r : HooksRun ε) : Prop :=
  ∀ i e, firstThrow hooks s = some (i, e) →
    r = ⟨.threw e, some { stopped := true, joinable := false }, (hooks.take (i + 1)).map Prod.snd⟩

theorem rethrows_runAll_iff (hooks : List (AsyncTask σ ε Unit × ℕ)) (s : σ) :
    Rethrows hooks s (runAll hooks s) ↔ firstThrow hooks s = none := by
  constructor
  · intro h
    cases hthrow : firstThrow hooks s with
    | none => rfl
    | some r =>
      have hr := h r.1 r.2 hthrow
      rw [runAll_of_throw hthrow] at hr
      cases hr
  · intro hnone i e h
    rw [hnone] at h
    cases h

/-- **An exception of a hook ends the process.** `init_all` and `deinit_all` meet their contract for exceptions exactly
if no hook throws. -/
theorem hooks_rethrow_iff (plugins : List (LifecyclePlugin σ ε)) (s : σ) :
    (Rethrows (initHooks plugins) s (initAll plugins s) ↔ firstThrow (initHooks plugins) s = none) ∧
    (Rethrows (deinitHooks plugins) s (deinitAll plugins s) ↔ firstThrow (deinitHooks plugins) s = none) ∧
    (∀ i e, firstThrow (initHooks plugins) s = some (i, e) →
      initAll plugins s = ⟨.terminated, some {}, ((initHooks plugins).take (i + 1)).map Prod.snd⟩) ∧
    (∀ i e, firstThrow (deinitHooks plugins) s = some (i, e) →
      deinitAll plugins s = ⟨.terminated, some {}, ((deinitHooks plugins).take (i + 1)).map Prod.snd⟩) ∧
    (firstThrow (initHooks plugins) s = none → (initAll plugins s).ending = .returned ∧
      (initAll plugins s).called = (initHooks plugins).map Prod.snd) ∧
    (firstThrow (deinitHooks plugins) s = none → (deinitAll plugins s).ending = .returned ∧
      (deinitAll plugins s).called = (deinitHooks plugins).map Prod.snd) := by
  refine ⟨rethrows_runAll_iff _ s, rethrows_runAll_iff _ s, fun i e => runAll_of_throw, fun i e => runAll_of_throw,
    fun h => ?_, fun h => ?_⟩
  · rw [initAll, runAll_of_none h]
    exact ⟨rfl, rfl⟩
  · rw [deinitAll, runAll_of_none h]
    exact ⟨rfl, rfl⟩

def plainPlugin (fails : Bool) : LifecyclePlugin Unit ℕ :=
  ⟨if fails then throw 5 else pure (), pure ()⟩

theorem hooks_rethrow_plain :
    Rethrows (initHooks [plainPlugin false]) () (initAll [plainPlugin false] ()) ∧
      ¬Rethrows (initHooks [plainPlugin true]) () (initAll [plainPlugin true] ()) ∧
      (deinitAll [plainPlugin true] ()).ending = .returned :=
  ⟨(hooks_rethrow_iff _ _).1.mpr rfl, mt (hooks_rethrow_iff _ _).1.mp (by decide),
    ((hooks_rethrow_iff _ _).2.2.2.2.2 rfl).1⟩

/-- The second of three plugins throws: its exception does not reach the caller of `init_all`. -/
theorem hooks_terminated :
    firstThrow (initHooks [plainPlugin false, plainPlugin true, plainPlugin false]) () = some (1, 5) ∧
      initAll [plainPlugin false, plainPlugin true, plainPlugin false] () = ⟨.terminated, some {}, [0, 1]⟩ := by
  decide

end Nhttp.Plugins
