import Nhttp.Lib.Run

/-!
# `listener::run` and `listener::stop`

`run` waits on a condition variable until `stop_requested_` is set. `stop` sets the flag and notifies
without taking the mutex, so it can run between the check of the predicate and the wait.

* `Lost`: `stop` has returned and `run` is blocked, with no notification on its way.
* `NotifiesAwake`: `stop` does not notify between a check that has failed and the wait behind it.
* **`run_not_lost`**: in a run all of whose steps are such, the wake-up is not lost.
-/

namespace Nhttp.Server

/-- Where the thread in `listener::run` is. -/
inductive RunPc
  | start
  | lock
  | check
  /-- The predicate was false: in front of the wait, with the mutex. -/
  | enter
  | blocked
  /-- Woken up, in front of taking the mutex again. -/
  | woken
  | leave
  | returned
  deriving DecidableEq, Repr

/-- Where the thread in `listener::stop` is. -/
inductive StopPc
  | store
  | notify
  | returned
  deriving DecidableEq, Repr

/-- A listener with one thread in `run` and one in `stop`. -/
structure RunStop where
  stopRequested : Bool := false
  locked : Bool := false
  run : RunPc := .start
  stop : StopPc := .store
  deriving DecidableEq, Repr

namespace RunStop

/-- A step of one of the threads, or a wake-up without a notification. -/
inductive Event
  | run
  | stop
  | spurious
  deriving DecidableEq, Repr

/-- Take the mutex and look at the predicate next. -/
def acquire (s : RunStop) : Option RunStop :=
  if s.locked then none else some { s with locked := true, run := .check }

/-- The next step of `listener::run`. -/
def runStep (s : RunStop) : Option RunStop :=
  match s.run with
  | .start => some { s with run := .lock }
  | .lock => s.acquire
  | .check => some { s with run := if s.stopRequested then .leave else .enter }
  -- the mutex is released and the thread is blocked in one step
  | .enter => some { s with locked := false, run := .blocked }
  | .blocked => none
  | .woken => s.acquire
  | .leave => some { s with locked := false, run := .returned }
  | .returned => none

/-- `notify_all`: who is not in the wait misses it. -/
def notifyAll (s : RunStop) : RunStop :=
  { s with run := if s.run = .blocked then .woken else s.run }

/-- The next step of `listener::stop`. -/
def stopStep (s : RunStop) : Option RunStop :=
  match s.stop with
  | .store => some { s with stopRequested := true, stop := .notify }
  | .notify => some { s.notifyAll with stop := .returned }
  | .returned => none

def step (s : RunStop) : Event → Option RunStop
  | .run => s.runStep
  | .stop => s.stopStep
  | .spurious => if s.run = .blocked then some { s with run := .woken } else none

/-- Nobody will wake up `run`. -/
def Lost (s : RunStop) : Prop := s.stop = .returned ∧ s.run = .blocked

instance (s : RunStop) : Decidable s.Lost := inferInstanceAs (Decidable (_ ∧ _))

/-- `stop` does not notify while `run` is between a failed check and the wait. -/
def NotifiesAwake (s : RunStop) (e : Event) : Prop :=
  ¬(e = .stop ∧ s.stop = .notify ∧ s.run = .enter)

instance (s : RunStop) (e : Event) : Decidable (s.NotifiesAwake e) :=
  inferInstanceAs (Decidable (¬_))

/-! ## The invariant -/

/-- The flag tells whether `stop` has begun; once it has returned, `run` is not on its way into the wait. -/
structure Ok (s : RunStop) : Prop where
  flag : s.stop ≠ .store → s.stopRequested = true
  awake : s.stop = .returned → s.run ≠ .enter ∧ s.run ≠ .blocked

theorem ok_start : ({} : RunStop).Ok := by
  refine ⟨?_, ?_⟩
  · intro h
    exact absurd rfl h
  · intro h
    cases h

namespace Ok

variable {s s' : RunStop}

theorem acquire (h : s.Ok) (hs : s.acquire = some s') : s'.Ok := by
  unfold RunStop.acquire at hs
  split_ifs at hs
  cases hs
  exact ⟨h.flag, fun _ => ⟨by simp, by simp⟩⟩

theorem runStep (h : s.Ok) (hs : s.runStep = some s') : s'.Ok := by
  unfold RunStop.runStep at hs
  cases hr : s.run with
  | start =>
    rw [hr] at hs
    cases hs
    exact ⟨h.flag, fun _ => ⟨by simp, by simp⟩⟩
  | lock | woken =>
    rw [hr] at hs
    exact h.acquire hs
  | check =>
    rw [hr] at hs
    cases hs
    refine ⟨h.flag, fun hret => ?_⟩
    -- `stop` has returned, so the predicate is true
    have hf : s.stopRequested = true := h.flag (by rw [hret]; simp)
    simp [hf]
  | enter =>
    rw [hr] at hs
    cases hs
    exact ⟨h.flag, fun hret => absurd hr (h.awake hret).1⟩
  | leave =>
    rw [hr] at hs
    cases hs
    exact ⟨h.flag, fun _ => ⟨by simp, by simp⟩⟩
  | blocked | returned =>
    rw [hr] at hs
    cases hs

theorem stopStep (h : s.Ok) (hc : s.NotifiesAwake .stop) (hs : s.stopStep = some s') : s'.Ok := by
  unfold RunStop.stopStep at hs
  cases hp : s.stop with
  | store =>
    rw [hp] at hs
    cases hs
    exact ⟨fun _ => rfl, fun hret => by cases hret⟩
  | notify =>
    rw [hp] at hs
    cases hs
    have hne : s.run ≠ .enter := fun hr => hc ⟨rfl, hp, hr⟩
    refine ⟨fun _ => h.flag (by rw [hp]; simp), fun _ => ?_⟩
    by_cases hb : s.run = .blocked
    · simp [notifyAll, hb]
    · simp [notifyAll, hb, hne]
  | returned =>
    rw [hp] at hs
    cases hs

theorem step {e : Event} (h : s.Ok) (hc : s.NotifiesAwake e) (hs : s.step e = some s') : s'.Ok := by
  cases e with
  | run => exact h.runStep hs
  | stop => exact h.stopStep hc hs
  | spurious =>
    simp only [RunStop.step] at hs
    split_ifs at hs
    cases hs
    exact ⟨h.flag, fun _ => ⟨by simp, by simp⟩⟩

end Ok

/-! ## Runs -/

/-- **The wake-up is not lost** in a run in which `stop` never notifies between a check that has failed
and the wait behind it. -/
theorem run_not_lost {es : List Event} {s : RunStop} (h : Run.Exec step NotifiesAwake {} es s) :
    ¬s.Lost := by
  have hok : s.Ok := h.inv (I := Ok) (fun _ _ _ hc hs hi => hi.step hc hs) ok_start
  rintro ⟨hret, hb⟩
  exact (hok.awake hret).2 hb

/-- `stop` is called while `run` is in the wait; `run` returns. -/
theorem run_not_lost_blocked :
    ∃ es s, Run.Exec step NotifiesAwake {} es s ∧ s.run = .returned ∧ s.stop = .returned ∧ ¬s.Lost := by
  have h : (Run.runChecked step NotifiesAwake {}
      [.run, .run, .run, .run, .stop, .stop, .run, .run, .run]).map (fun s => (s.run, s.stop)) =
        some (.returned, .returned) := by
    decide
  obtain ⟨s, hx, he⟩ := Run.exists_exec h
  exact ⟨_, s, hx, congrArg Prod.fst he, congrArg Prod.snd he, run_not_lost hx⟩

/-- `stop` sets the flag and notifies right after the predicate was found false: `run` goes to sleep. -/
theorem run_lost : ∃ es s, Run.Exec step (fun _ _ => True) {} es s ∧ s.Lost := by
  have h : (Run.runChecked step (fun _ _ => True) ({} : RunStop)
      [.run, .run, .run, .stop, .stop, .run]).map (fun s => decide s.Lost) = some true := by
    decide
  obtain ⟨s, hx, he⟩ := Run.exists_exec h
  exact ⟨_, s, hx, of_decide_eq_true he⟩

end RunStop

end Nhttp.Server
