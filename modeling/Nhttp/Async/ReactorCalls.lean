import Nhttp.Async.ReadyEvents

/-!
# The calls on the reactor

* `ReactorCall.on`: the usage contract of `reactor.hpp` as the only ways in which calls may be made.
* `interestCalls`, `forgetCalls`, `reactorCalls`: the calls of `update_interest`, of `forget` and of a step.
* **`reactor_mirrors`**: the reactor watches what is waited for, and its contract is kept.
-/

namespace Nhttp.Async

open Option Function Registration

inductive ReactorCall
  | add (read write : Bool)
  | modify (read write : Bool)
  | remove
  deriving DecidableEq, Repr

def ReactorCall.on (watched : Option (Bool × Bool)) : ReactorCall → Option (Option (Bool × Bool))
  | .add read write => if watched = none ∧ (read || write) then some (some (read, write)) else none
  | .modify read write =>
    if watched.isSome ∧ watched ≠ some (read, write) ∧ (read || write) then some (some (read, write)) else none
  | .remove => if watched.isSome then some none else none

namespace Registration

/-- The calls of `update_interest`. -/
def interestCalls (reg : Registration) : List ReactorCall :=
  if reg.registered = false then if reg.wantRead || reg.wantWrite then [.add reg.wantRead reg.wantWrite] else []
  else if reg.wantRead = reg.interestRead ∧ reg.wantWrite = reg.interestWrite then []
  else if reg.wantRead = false ∧ reg.wantWrite = false then [.remove]
  else [.modify reg.wantRead reg.wantWrite]

def forgetCalls (reg : Registration) : List ReactorCall := if reg.registered then [.remove] else []

/-- What is waited for. -/
def awaited (reg : Registration) : Option (Bool × Bool) :=
  if reg.readWaiter.isSome || reg.writeWaiter.isSome then some (reg.readWaiter.isSome, reg.writeWaiter.isSome) else none

end Registration

namespace EventLoop

/-- The registration of socket `k` when a step calls `update_interest` on it. -/
def updated (s : EventLoop) (k : ℕ) : Event → Option Registration
  | .take =>
    match s.pc with
    | .next (ev :: _) =>
      if ev.userData = some k then (s.sockets.regs k).map fun reg =>
        { reg with
          readWaiter := if ev.readable then none else reg.readWaiter
          writeWaiter := if ev.writable then none else reg.writeWaiter }
      else none
    | _ => none
  | .act (.watchReadable j h) => if j = k then (s.sockets.regs k).map fun reg => { reg with readWaiter := some h } else none
  | .act (.watchWritable j h) => if j = k then (s.sockets.regs k).map fun reg => { reg with writeWaiter := some h } else none
  | _ => none

/-- The calls of a step for the socket `k`. -/
def reactorCalls (s : EventLoop) (k : ℕ) : Event → List ReactorCall
  | .act (.forget j) | .act (.close j) =>
    if j = k then ((s.sockets.regs k).map Registration.forgetCalls).getD [] else []
  | e => ((s.updated k e).map Registration.interestCalls).getD []

end EventLoop

/-! ## Calls and what they lead to -/

/-- The calls keep the contract and lead from the one to the other, with a removal only when it is due. -/
structure Replays (calls : List ReactorCall) (before after : Option (Bool × Bool)) : Prop where
  replay : calls.foldlM ReactorCall.on before = some after
  length : calls.length ≤ 1
  remove : .remove ∈ calls ↔ before.isSome = true ∧ after = none

theorem replays_nil (w : Option (Bool × Bool)) : Replays [] w w :=
  ⟨rfl, Nat.zero_le 1, by cases w <;> simp⟩

theorem replays_interestCalls {reg : Registration} (hf : reg.Flags) :
    Replays reg.interestCalls reg.told reg.refreshed.told := by
  obtain ⟨r, w, registered, ir, iw⟩ := reg
  -- the flag is that of the interests, so there are sixteen cases
  obtain rfl : registered = (ir || iw) := hf
  cases r <;> cases w <;> cases ir <;> cases iw <;>
    refine ⟨rfl, by simp [interestCalls, wantRead, wantWrite], ?_⟩ <;>
    simp [interestCalls, told, refreshed, wantRead,
      wantWrite]

theorem replays_forgetCalls (reg : Registration) : Replays reg.forgetCalls reg.told none := by
  obtain ⟨r, w, registered, ir, iw⟩ := reg
  cases registered with
  | false => exact replays_nil none
  | true => exact ⟨rfl, Nat.le_refl 1, by simp [forgetCalls, told]⟩

namespace EventLoop

variable {s s' : EventLoop} {e : Event} {k : ℕ}

theorem replays_updateInterest {S : Sockets} (h : S.Synced) {j : ℕ} {reg : Registration} (hj : S.regs j = some reg)
    (r w : Option Handle) (k : ℕ) :
    Replays (if j = k then interestCalls { reg with readWaiter := r, writeWaiter := w } else [])
      (S.watched k) ((S.updateInterest j { reg with readWaiter := r, writeWaiter := w }).watched k) := by
  rw [h.updateInterest_eq hj]
  dsimp only
  split_ifs with hk
  · subst hk
    have hf : reg.Flags := h.flags hj
    rw [update_self, h.told hj]
    exact replays_interestCalls hf
  · rw [update_of_ne (Ne.symm hk)]
    exact replays_nil _

/-- The calls of `forget`, also if the registration is freed afterwards. -/
theorem replays_forget {S S' : Sockets} (h : S.Synced) {j : ℕ} (hw : S'.watched = update S.watched j none) (k : ℕ) :
    Replays (if j = k then ((S.regs k).map forgetCalls).getD [] else []) (S.watched k) (S'.watched k) := by
  rw [hw]
  split_ifs with hk
  · subst hk
    rw [update_self]
    cases hj : S.regs j with
    | none =>
      rw [h.closed hj]
      exact replays_nil none
    | some reg =>
      rw [h.told hj]
      exact replays_forgetCalls reg
  · rw [update_of_ne (Ne.symm hk)]
    exact replays_nil _

/-- **A step** makes the calls that its changes need. -/
theorem replays_step (h : s.sockets.Synced) (hs : s.step e = some s') (k : ℕ) :
    Replays (s.reactorCalls k e) (s.sockets.watched k) (s'.sockets.watched k) := by
  have hupd : ∀ (r w : Registration → Option Handle) {j reg}, s.sockets.regs j = some reg →
      s.reactorCalls k e = (((if j = k then (s.sockets.regs k).map fun reg =>
        { reg with readWaiter := r reg, writeWaiter := w reg } else none).map interestCalls).getD []) →
      Replays (s.reactorCalls k e) (s.sockets.watched k)
        ((s.sockets.updateInterest j { reg with readWaiter := r reg, writeWaiter := w reg }).watched k) := by
    intro r w j reg hreg hcalls
    have hr := replays_updateInterest h hreg (r reg) (w reg) k
    rw [hcalls]
    by_cases hjk : j = k
    · subst hjk
      simpa [hreg] using hr
    · simpa [hjk] using hr
  cases move_of_step hs with
  | last hpc =>
    simp only [reactorCalls, updated, hpc]
    exact replays_nil _
  | skip hpc hk =>
    simp only [reactorCalls, updated, hpc, hk, reduceCtorEq, if_false]
    exact replays_nil _
  | @take ev _ _ _ hpc hk hreg =>
    exact hupd (fun reg => if ev.readable then none else reg.readWaiter)
      (fun reg => if ev.writable then none else reg.writeWaiter) hreg (by simp [reactorCalls, updated, hpc, hk])
  | watchReadable hreg w => exact hupd (fun _ => some w) (fun reg => reg.writeWaiter) hreg rfl
  | watchWritable hreg w => exact hupd (fun reg => reg.readWaiter) (fun _ => some w) hreg rfl
  | @forget j reg hreg =>
    refine replays_forget h ?_ k
    dsimp only
    rw [h.forget_eq hreg, h.updateInterest_eq hreg]
    rfl
  | close j => exact replays_forget h (h.close_watched j) k
  | _ => exact replays_nil _

theorem watched_eq_awaited (h : s.sockets.Synced) (k : ℕ) :
    s.sockets.watched k = (s.sockets.regs k).bind awaited := by
  cases hk : s.sockets.regs k with
  | none => exact h.closed hk
  | some reg =>
    rw [h.told hk, ← h.refreshed hk]
    rfl

/-- **The reactor mirrors the registrations**, as long as sockets are spared: the step for the next event is defined, and
after every step the reactor watches a socket exactly for what is waited for, and the calls of the step keep the contract
and lead there. -/
theorem reactor_mirrors {es : List Event} (h : Run.Exec step Spares {} es s) :
    (∀ ev rest, s.pc = .next (ev :: rest) → (s.step .take).isSome = true) ∧
    ∀ e s', s.step e = some s' → ∀ k,
      s'.sockets.watched k = (s'.sockets.regs k).bind Registration.awaited ∧
      (s.reactorCalls k e).foldlM ReactorCall.on (s.sockets.watched k) = some (s'.sockets.watched k) ∧
      (s.reactorCalls k e).length ≤ 1 ∧
      (.remove ∈ s.reactorCalls k e ↔ (s.sockets.watched k).isSome = true ∧ s'.sockets.watched k = none) := by
  have hok : s.Ok := h.inv (I := Ok) (fun _ _ _ hc hs hi => ok_step hc hs hi) ok_start
  refine ⟨fun ev rest hpc => ?_, fun e s' hs k => ?_⟩
  · have hl : s.Live := hok.live
    rw [Live, hpc] at hl
    cases hk : ev.userData with
    | none => simp [step, hpc, take, hk]
    | some k =>
      obtain ⟨reg, hreg⟩ := isSome_iff_exists.mp (hl k hk)
      simp [step, hpc, take, hk, hreg]
  · obtain ⟨hreplay, hlen, hremove⟩ := replays_step hok.synced hs k
    exact ⟨watched_eq_awaited (synced_step hs hok.synced) k, hreplay, hlen, hremove⟩

/-- The first of two coroutines forgets the socket of the second one: nothing is done for its event. -/
theorem reactor_mirrors_forgotten :
    ∃ es s s', Run.Exec step Spares {} es s ∧ s.step .take = some s' ∧ s.reactorCalls 1 .take = [] ∧
      s'.pc = .next [] ∧ s'.sockets.watched 1 = (s'.sockets.regs 1).bind Registration.awaited ∧
      (s.reactorCalls 1 .take).foldlM ReactorCall.on (s.sockets.watched 1) = some (s'.sockets.watched 1) := by
  have h : (Run.runChecked step Spares ({} : EventLoop)
      [.act .openSocket, .act .openSocket, .act (.watchReadable 0 10), .act (.watchReadable 1 11),
        .wait [⟨some 0, true, false⟩, ⟨some 1, true, false⟩], .take, .resume, .act (.forget 1), .yield]).map
        (fun s => (s.reactorCalls 1 .take, (s.step .take).map EventLoop.pc)) = some ([], some (.next [])) := by
    decide
  obtain ⟨s, hx, he⟩ := Run.exists_exec h
  obtain ⟨hcalls, hstep⟩ := Prod.mk.inj he
  obtain ⟨s', hs', hpc⟩ := map_eq_some_iff.mp hstep
  obtain ⟨h1, h2, -⟩ := (reactor_mirrors hx).2 _ s' hs' 1
  exact ⟨_, s, s', hx, hs', hcalls, hpc, h1, h2⟩

/-- The first of two coroutines closes the socket of the second one: the event points to a registration that is freed, and
its step is not defined. -/
theorem reactor_event_of_freed :
    ∃ es s, Run.Exec step (fun _ _ => True) {} es s ∧ s.pc = .next [⟨some 1, true, false⟩] ∧ s.step .take = none := by
  have h : (Run.runChecked step (fun _ _ => True) ({} : EventLoop)
      [.act .openSocket, .act .openSocket, .act (.watchReadable 0 10), .act (.watchReadable 1 11),
        .wait [⟨some 0, true, false⟩, ⟨some 1, true, false⟩], .take, .resume, .act (.close 1), .yield]).map
        (fun s => (s.pc, (s.step .take).isNone)) = some (.next [⟨some 1, true, false⟩], true) := by
    decide
  obtain ⟨s, hx, he⟩ := Run.exists_exec h
  obtain ⟨hpc, hstep⟩ := Prod.mk.inj he
  exact ⟨_, s, hx, hpc, isNone_iff_eq_none.mp hstep⟩

end EventLoop

end Nhttp.Async
