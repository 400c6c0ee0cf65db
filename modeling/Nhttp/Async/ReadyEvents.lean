import Nhttp.Async.Registration
import Nhttp.Lib.Run

/-!
# The ready events of a loop

`process_ready_events` goes through a batch of events that point to registrations, takes the waiting
coroutines out of each, and resumes them; these can open and close sockets, and wait for them.

* `Live`: what is dereferenced or resumed next belongs to an open socket.
* `Spares`: no coroutine closes a socket whose turn in the batch is still to come.
* **`dereferenced_live`**: under that condition nothing dead is touched.
-/

namespace Nhttp.Async

open List Option Function

/-- `ready_event`; the user data points to the registration of a socket. -/
structure ReadyEvent where
  userData : Option ℕ
  readable : Bool
  writable : Bool
  deriving DecidableEq, Repr

/-- Where the loop is. -/
inductive EventPc
  /-- Outside `process_ready_events`: coroutines of timers and posts may run. -/
  | idle
  | next (rest : List ReadyEvent)
  /-- In front of `to_resume_read.resume()`, for the socket `k`. -/
  | resumeRead (k : ℕ) (h : Handle) (write : Option Handle) (rest : List ReadyEvent)
  | resumeWrite (k : ℕ) (h : Handle) (rest : List ReadyEvent)
  /-- A resumed coroutine runs; the handle to resume after it. -/
  | running (saved : Option (ℕ × Handle)) (rest : List ReadyEvent)
  deriving DecidableEq, Repr

namespace EventPc

/-- The sockets whose registration or handle is still to be used. -/
def pending : EventPc → List ℕ
  | .idle => []
  | .next rest => rest.filterMap ReadyEvent.userData
  | .resumeRead k _ _ rest | .resumeWrite k _ rest => k :: rest.filterMap ReadyEvent.userData
  | .running saved rest => saved.toList.map Prod.fst ++ rest.filterMap ReadyEvent.userData

def runs : EventPc → Bool
  | .idle | .running .. => true
  | _ => false

/-- The steps to the end of the batch. -/
def rank : EventPc → ℕ
  | .idle => 0
  | .next rest => 5 * rest.length
  | .running none rest => 5 * rest.length + 1
  | .resumeWrite _ _ rest => 5 * rest.length + 2
  | .running (some _) rest => 5 * rest.length + 3
  | .resumeRead _ _ _ rest => 5 * rest.length + 4

def after (k : ℕ) (rest : List ReadyEvent) : Option Handle → Option Handle → EventPc
  | some h, write => .resumeRead k h write rest
  | none, some h => .resumeWrite k h rest
  | none, none => .next rest

end EventPc

structure EventLoop where
  sockets : Sockets := {}
  pc : EventPc := .idle

namespace EventLoop

/-- What a coroutine does with the sockets of the context. -/
inductive Action
  | openSocket
  | forget (k : ℕ)
  | close (k : ℕ)
  | watchReadable (k : ℕ) (h : Handle)
  | watchWritable (k : ℕ) (h : Handle)
  deriving DecidableEq, Repr

inductive Event
  | wait (batch : List ReadyEvent)
  /-- The next event is looked at, or there is none. -/
  | take
  | resume
  /-- The running coroutine is suspended again, or ends. -/
  | yield
  | act (a : Action)
  deriving DecidableEq, Repr

/-- The reactor reports only what it watches. -/
def Reported (s : EventLoop) (ev : ReadyEvent) : Prop :=
  match ev.userData with
  | some k => (s.sockets.watched k).isSome = true
  | none => False

instance (s : EventLoop) (ev : ReadyEvent) : Decidable (s.Reported ev) := by
  unfold Reported
  split <;> infer_instance

/-- The body of the loop of `process_ready_events`. -/
def take (s : EventLoop) (ev : ReadyEvent) (rest : List ReadyEvent) : Option EventLoop :=
  match ev.userData with
  | none => some { s with pc := .next rest }
  | some k =>
    match s.sockets.regs k with
    -- the registration has been freed
    | none => none
    | some reg =>
      let read := if ev.readable then reg.readWaiter else none
      let write := if ev.writable then reg.writeWaiter else none
      some
        { sockets := s.sockets.updateInterest k { reg with
            readWaiter := if ev.readable then none else reg.readWaiter
            writeWaiter := if ev.writable then none else reg.writeWaiter }
          pc := .after k rest read write }

def act (s : EventLoop) : Action → Option EventLoop
  | .openSocket => some { s with sockets := s.sockets.openSocket }
  | .forget k => (s.sockets.regs k).map fun reg => { s with sockets := s.sockets.forget k reg }
  | .close k => some { s with sockets := s.sockets.close k }
  | .watchReadable k h => (s.sockets.watchReadable k h).map fun sockets => { s with sockets := sockets }
  | .watchWritable k h => (s.sockets.watchWritable k h).map fun sockets => { s with sockets := sockets }

def step (s : EventLoop) : Event → Option EventLoop
  | .wait batch =>
    if s.pc = .idle ∧ ∀ ev ∈ batch, s.Reported ev then some { s with pc := .next batch } else none
  | .take =>
    match s.pc with
    | .next [] => some { s with pc := .idle }
    | .next (ev :: rest) => s.take ev rest
    | _ => none
  | .resume =>
    match s.pc with
    | .resumeRead k _ write rest => some { s with pc := .running (write.map fun h => (k, h)) rest }
    | .resumeWrite _ _ rest => some { s with pc := .running none rest }
    | _ => none
  | .yield =>
    match s.pc with
    | .running (some (k, h)) rest => some { s with pc := .resumeWrite k h rest }
    | .running none rest => some { s with pc := .next rest }
    | _ => none
  | .act a => if s.pc.runs then s.act a else none

def Live (s : EventLoop) : Prop :=
  match s.pc with
  | .next (ev :: _) => ∀ k, ev.userData = some k → (s.sockets.regs k).isSome = true
  | .resumeRead k _ _ _ | .resumeWrite k _ _ => (s.sockets.regs k).isSome = true
  | _ => True

/-- A socket is not closed while its event, or its saved handle, is still to come. -/
def Spares (s : EventLoop) : Event → Prop
  | .act (.close k) => k ∉ s.pc.pending
  | _ => True

instance (s : EventLoop) (e : Event) : Decidable (s.Spares e) := by
  unfold Spares
  split <;> infer_instance

/-! ## Steps -/

/-- What a step does. -/
inductive Move (s : EventLoop) : Event → EventLoop → Prop
  | wait {batch : List ReadyEvent} (hpc : s.pc = .idle) (hr : ∀ ev ∈ batch, s.Reported ev) :
      Move s (.wait batch) { s with pc := .next batch }
  | last (hpc : s.pc = .next []) : Move s .take { s with pc := .idle }
  | skip {ev : ReadyEvent} {rest : List ReadyEvent} (hpc : s.pc = .next (ev :: rest)) (hk : ev.userData = none) :
      Move s .take { s with pc := .next rest }
  | take {ev : ReadyEvent} {rest : List ReadyEvent} {k : ℕ} {reg : Registration}
      (hpc : s.pc = .next (ev :: rest)) (hk : ev.userData = some k) (hreg : s.sockets.regs k = some reg) :
      Move s .take
        { sockets := s.sockets.updateInterest k { reg with
            readWaiter := if ev.readable then none else reg.readWaiter
            writeWaiter := if ev.writable then none else reg.writeWaiter }
          pc := .after k rest (if ev.readable then reg.readWaiter else none)
            (if ev.writable then reg.writeWaiter else none) }
  | resumeRead {k : ℕ} {h : Handle} {write : Option Handle} {rest : List ReadyEvent}
      (hpc : s.pc = .resumeRead k h write rest) :
      Move s .resume { s with pc := .running (write.map fun h => (k, h)) rest }
  | resumeWrite {k : ℕ} {h : Handle} {rest : List ReadyEvent} (hpc : s.pc = .resumeWrite k h rest) :
      Move s .resume { s with pc := .running none rest }
  | saved {k : ℕ} {h : Handle} {rest : List ReadyEvent} (hpc : s.pc = .running (some (k, h)) rest) :
      Move s .yield { s with pc := .resumeWrite k h rest }
  | yield {rest : List ReadyEvent} (hpc : s.pc = .running none rest) : Move s .yield { s with pc := .next rest }
  | openSocket : Move s (.act .openSocket) { s with sockets := s.sockets.openSocket }
  | forget {k : ℕ} {reg : Registration} (hreg : s.sockets.regs k = some reg) :
      Move s (.act (.forget k)) { s with sockets := s.sockets.forget k reg }
  | close (k : ℕ) : Move s (.act (.close k)) { s with sockets := s.sockets.close k }
  | watchReadable {k : ℕ} {reg : Registration} (hreg : s.sockets.regs k = some reg) (h : Handle) :
      Move s (.act (.watchReadable k h)) { s with
        sockets := s.sockets.updateInterest k { reg with readWaiter := some h } }
  | watchWritable {k : ℕ} {reg : Registration} (hreg : s.sockets.regs k = some reg) (h : Handle) :
      Move s (.act (.watchWritable k h)) { s with
        sockets := s.sockets.updateInterest k { reg with writeWaiter := some h } }

theorem move_of_act {s s' : EventLoop} {a : Action} (hs : s.act a = some s') : Move s (.act a) s' := by
  cases a with
  | openSocket =>
    cases hs
    exact .openSocket
  | forget k =>
    obtain ⟨reg, hreg, rfl⟩ := map_eq_some_iff.mp hs
    exact .forget hreg
  | close k =>
    cases hs
    exact .close k
  | watchReadable k h =>
    obtain ⟨sockets, hsock, rfl⟩ := map_eq_some_iff.mp hs
    obtain ⟨reg, hreg, rfl⟩ := map_eq_some_iff.mp hsock
    exact .watchReadable hreg h
  | watchWritable k h =>
    obtain ⟨sockets, hsock, rfl⟩ := map_eq_some_iff.mp hs
    obtain ⟨reg, hreg, rfl⟩ := map_eq_some_iff.mp hsock
    exact .watchWritable hreg h

theorem move_of_step {s s' : EventLoop} {e : Event} (hs : s.step e = some s') : Move s e s' := by
  unfold step at hs
  split at hs
  · split_ifs at hs with hg
    cases hs
    exact .wait hg.1 hg.2
  · split at hs
    case h_1 hpc =>
      cases hs
      exact .last hpc
    case h_2 hpc =>
      unfold EventLoop.take at hs
      split at hs
      case h_1 hk =>
        cases hs
        exact .skip hpc hk
      case h_2 hk =>
        split at hs
        · cases hs
        · cases hs
          exact .take hpc hk ‹_›
    case h_3 => cases hs
  · split at hs <;> cases hs
    · exact .resumeRead ‹_›
    · exact .resumeWrite ‹_›
  · split at hs <;> cases hs
    · exact .saved ‹_›
    · exact .yield ‹_›
  · split_ifs at hs
    exact move_of_act hs

/-! ## Nothing dead -/

/-- The sockets whose turn is still to come are open. -/
structure Ok (s : EventLoop) : Prop where
  synced : s.sockets.Synced
  pending : ∀ k ∈ s.pc.pending, (s.sockets.regs k).isSome = true

theorem ok_start : ({} : EventLoop).Ok := ⟨Sockets.synced_start, nofun⟩

section Step

variable {s s' : EventLoop}

theorem Ok.live (h : s.Ok) : s.Live := by
  unfold Live
  split
  case h_1 ev rest hpc =>
    intro k hk
    refine h.pending k ?_
    rw [hpc]
    exact mem_filterMap.mpr ⟨ev, mem_cons_self, hk⟩
  case h_2 k _ _ _ hpc =>
    refine h.pending k ?_
    rw [hpc]
    exact mem_cons_self
  case h_3 k _ _ hpc =>
    refine h.pending k ?_
    rw [hpc]
    exact mem_cons_self
  case h_4 => trivial

variable {ev : ReadyEvent} {k j : ℕ} {rest : List ReadyEvent} {e : Event}

theorem Ok.isSome_of_reported (h : s.Ok) (hr : s.Reported ev)
    (hk : ev.userData = some k) : (s.sockets.regs k).isSome = true := by
  rw [Reported, hk] at hr
  cases hreg : s.sockets.regs k with
  | some reg => rfl
  | none =>
    simp only [h.synced.closed hreg] at hr
    cases hr

theorem mem_filterMap_cons (hj : j ∈ rest.filterMap ReadyEvent.userData) :
    j ∈ (ev :: rest).filterMap ReadyEvent.userData := by
  obtain ⟨ev', hev', hj⟩ := mem_filterMap.mp hj
  exact mem_filterMap.mpr ⟨ev', mem_cons_of_mem _ hev', hj⟩

theorem pending_after {read write : Option Handle} (hj : j ∈ (EventPc.after k rest read write).pending) :
    j = k ∨ j ∈ rest.filterMap ReadyEvent.userData := by
  cases read with
  | some h => exact mem_cons.mp hj
  | none =>
    cases write with
    | some h => exact mem_cons.mp hj
    | none => exact .inr hj

theorem mem_pending_after (hj : j ∈ rest.filterMap ReadyEvent.userData) (read write : Option Handle) :
    j ∈ (EventPc.after k rest read write).pending := by
  cases read with
  | some h => exact mem_cons_of_mem _ hj
  | none =>
    cases write with
    | some h => exact mem_cons_of_mem _ hj
    | none => exact hj

theorem isSome_updateInterest (h : s.sockets.Synced) {reg : Registration}
    (hk : s.sockets.regs k = some reg) (r w : Option Handle) (j : ℕ) :
    ((s.sockets.updateInterest k { reg with readWaiter := r, writeWaiter := w }).regs j).isSome =
      (s.sockets.regs j).isSome := by
  rw [h.updateInterest_eq hk]
  by_cases hj : j = k
  · subst hj
    simp only [update_self, hk]
    rfl
  · simp only [update_of_ne hj]

theorem ok_step (hc : s.Spares e) (hs : s.step e = some s') (h : s.Ok) : s'.Ok := by
  have hp := h.pending
  cases move_of_step hs with
  | wait _ hr =>
    refine ⟨h.synced, fun k hk => ?_⟩
    obtain ⟨ev, hev, hk⟩ := mem_filterMap.mp hk
    exact h.isSome_of_reported (hr ev hev) hk
  | last => exact ⟨h.synced, nofun⟩
  | skip hpc _ =>
    rw [hpc] at hp
    exact ⟨h.synced, fun j hj => hp j (mem_filterMap_cons hj)⟩
  | take hpc hk hreg =>
    rw [hpc] at hp
    refine ⟨h.synced.updateInterest hreg _ _, fun j hj => ?_⟩
    rw [isSome_updateInterest h.synced hreg]
    rcases pending_after hj with rfl | hj
    · rw [hreg]
      rfl
    · exact hp j (mem_filterMap_cons hj)
  | @resumeRead _ _ write _ hpc =>
    rw [hpc] at hp
    refine ⟨h.synced, fun j hj => hp j ?_⟩
    cases write with
    | none => exact mem_cons_of_mem _ hj
    | some w => exact hj
  | resumeWrite hpc =>
    rw [hpc] at hp
    exact ⟨h.synced, fun j hj => hp j (mem_cons_of_mem _ hj)⟩
  | saved hpc | yield hpc =>
    rw [hpc] at hp
    exact ⟨h.synced, hp⟩
  | openSocket =>
    refine ⟨h.synced.openSocket, fun k hk => ?_⟩
    by_cases he : k = s.sockets.opened
    · subst he
      simp [Sockets.openSocket]
    · simp only [Sockets.openSocket, update_of_ne he]
      exact hp k hk
  | close j =>
    refine ⟨h.synced.close j, fun k hk => ?_⟩
    have hne : k ≠ j := by
      rintro rfl
      exact hc hk
    simp only [Sockets.close_regs, update_of_ne hne]
    exact hp k hk
  | forget hreg =>
    rw [h.synced.forget_eq hreg]
    refine ⟨h.synced.updateInterest hreg _ _, fun k hk => ?_⟩
    rw [isSome_updateInterest h.synced hreg]
    exact hp k hk
  | watchReadable hreg w | watchWritable hreg w =>
    refine ⟨h.synced.updateInterest hreg _ _, fun k hk => ?_⟩
    rw [isSome_updateInterest h.synced hreg]
    exact hp k hk

/-! ## Something dead -/

def Event.isLoop : Event → Bool
  | .take | .resume | .yield => true
  | _ => false

/-- A closed socket stays closed while the loop goes on, and its turn comes. -/
theorem pending_step (hl : s.Live) (he : e.isLoop = true) (hs : s.step e = some s')
    (hsync : s.sockets.Synced) (hj : s.sockets.regs j = none) (hmem : j ∈ s.pc.pending) :
    s'.sockets.Synced ∧ s'.sockets.regs j = none ∧ j ∈ s'.pc.pending := by
  have hrest : ∀ {ev rest}, s.pc = .next (ev :: rest) → j ∈ rest.filterMap ReadyEvent.userData := by
    intro ev rest hpc
    rw [Live, hpc] at hl
    rw [hpc] at hmem
    obtain ⟨ev', hev', hj'⟩ := mem_filterMap.mp hmem
    rcases mem_cons.mp hev' with rfl | hev'
    · have hlive := hl j hj'
      rw [hj] at hlive
      cases hlive
    · exact mem_filterMap.mpr ⟨ev', hev', hj'⟩
  cases move_of_step hs with
  | wait | openSocket | forget | close | watchReadable | watchWritable => cases he
  | last hpc =>
    rw [hpc] at hmem
    cases hmem
  | skip hpc _ => exact ⟨hsync, hj, hrest hpc⟩
  | @take ev rest k reg hpc _ hreg =>
    refine ⟨hsync.updateInterest hreg _ _, ?_, mem_pending_after (hrest hpc) _ _⟩
    have hnone := isSome_updateInterest hsync hreg
      (if ev.readable then none else reg.readWaiter) (if ev.writable then none else reg.writeWaiter) j
    rw [hj] at hnone
    exact isSome_eq_false_iff.mp hnone |> isNone_iff_eq_none.mp
  | resumeRead hpc | resumeWrite hpc =>
    rw [Live, hpc] at hl
    rw [hpc] at hmem
    refine ⟨hsync, hj, mem_append_right _ ((mem_cons.mp hmem).resolve_left ?_)⟩
    rintro rfl
    dsimp only at hl
    rw [hj] at hl
    cases hl
  | saved hpc | yield hpc =>
    rw [hpc] at hmem
    exact ⟨hsync, hj, hmem⟩

theorem rank_after (k : ℕ) (rest : List ReadyEvent) (read write : Option Handle) :
    (EventPc.after k rest read write).rank < 5 * (rest.length + 1) := by
  cases read <;> cases write <;> simp only [EventPc.after, EventPc.rank] <;> omega

/-- As long as nothing dead is next, the loop goes on to the end of the batch. -/
theorem exists_loop_step (hl : ∀ ev rest k, s.pc = .next (ev :: rest) → ev.userData = some k →
    (s.sockets.regs k).isSome = true) (hi : s.pc ≠ .idle) (hn : s.pc ≠ .next []) :
    ∃ e s', Event.isLoop e = true ∧ s.step e = some s' ∧ s'.pc.rank < s.pc.rank := by
  cases hpc : s.pc with
  | idle => exact absurd hpc hi
  | next rest =>
    cases rest with
    | nil => exact absurd hpc hn
    | cons ev rest =>
      cases hk : ev.userData with
      | none =>
        refine ⟨.take, { s with pc := .next rest }, rfl, ?_, ?_⟩
        · simp only [step, hpc, take, hk]
        · simp only [EventPc.rank, length_cons]
          omega
      | some k =>
        obtain ⟨reg, hreg⟩ := isSome_iff_exists.mp (hl ev rest k hpc hk)
        have htake : s.step .take = some
            { sockets := s.sockets.updateInterest k { reg with
                readWaiter := if ev.readable then none else reg.readWaiter
                writeWaiter := if ev.writable then none else reg.writeWaiter }
              pc := .after k rest (if ev.readable then reg.readWaiter else none)
                (if ev.writable then reg.writeWaiter else none) } := by
          simp only [step, hpc, take, hk, hreg]
        exact ⟨.take, _, rfl, htake, rank_after k rest _ _⟩
  | resumeRead k h write rest =>
    refine ⟨.resume, { s with pc := .running (write.map fun h => (k, h)) rest }, rfl, ?_, ?_⟩
    · simp only [step, hpc]
    · cases write <;> simp [EventPc.rank]
  | resumeWrite k h rest =>
    refine ⟨.resume, { s with pc := .running none rest }, rfl, ?_, ?_⟩
    · simp only [step, hpc]
    · simp [EventPc.rank]
  | running saved rest =>
    cases saved with
    | none =>
      refine ⟨.yield, { s with pc := .next rest }, rfl, ?_, ?_⟩
      · simp only [step, hpc]
      · simp [EventPc.rank]
    | some x =>
      refine ⟨.yield, { s with pc := .resumeWrite x.1 x.2 rest }, rfl, ?_, ?_⟩
      · simp only [step, hpc]
      · simp [EventPc.rank]

theorem exists_not_live (hsync : s.sockets.Synced) (hj : s.sockets.regs j = none)
    (hmem : j ∈ s.pc.pending) : ∃ es s', Run.Exec step (fun _ _ => True) s es s' ∧ ¬s'.Live := by
  obtain ⟨es, s', hx, hn⟩ := Run.Exec.of_progress (C := fun s e => Event.isLoop e = true ∧ s.Live)
    Nat.lt_wfRel.wf (fun s : EventLoop => s.pc.rank)
    (I := fun s => s.sockets.Synced ∧ s.sockets.regs j = none ∧ j ∈ s.pc.pending) (G := fun s => ¬s.Live)
    (fun _ _ _ hc hs hi => pending_step hc.2 hc.1 hs hi.1 hi.2.1 hi.2.2)
    (fun s hi hg => by
      have hl : s.Live := not_not.mp hg
      obtain ⟨e, s', he, hs, hlt⟩ := exists_loop_step
        (fun ev rest k hpc hk => by
          rw [Live, hpc] at hl
          exact hl k hk)
        (fun hpc => by
          have hm := hi.2.2
          rw [hpc] at hm
          cases hm)
        (fun hpc => by
          have hm := hi.2.2
          rw [hpc] at hm
          cases hm)
      exact ⟨e, s', ⟨he, hl⟩, hs, hlt⟩) s ⟨hsync, hj, hmem⟩
  exact ⟨es, s', hx.mono fun _ _ _ => trivial, hn⟩

/-- The registrations and the reactor agree, whatever the coroutines do. -/
theorem synced_step (hs : s.step e = some s') (h : s.sockets.Synced) : s'.sockets.Synced := by
  cases move_of_step hs with
  | take _ _ hreg | watchReadable hreg _ | watchWritable hreg _ => exact h.updateInterest hreg _ _
  | openSocket => exact h.openSocket
  | forget hreg =>
    rw [h.forget_eq hreg]
    exact h.updateInterest hreg _ _
  | close k => exact h.close k
  | _ => exact h

end Step

/-! ## Runs -/

/-- **Nothing dead is touched exactly as long as sockets are spared**: otherwise the loop gets to a closed one. -/
theorem dereferenced_live {es : List Event} {s : EventLoop}
    (h : Run.Exec step (fun _ _ => True) {} es s) :
    (Run.Exec step Spares {} es s → s.Live) ∧
      ∀ k s', s.step (.act (.close k)) = some s' → ¬s.Spares (.act (.close k)) →
        ∃ es' s'', Run.Exec step (fun _ _ => True) s' es' s'' ∧ ¬s''.Live := by
  refine ⟨fun hx => ?_, fun k s' hs hc => ?_⟩
  · exact (hx.inv (I := Ok) (fun _ _ _ hc hs hi => ok_step hc hs hi) ok_start).live
  · have hsync : s.sockets.Synced :=
      h.inv (I := fun s => s.sockets.Synced) (fun _ _ _ _ hs hi => synced_step hs hi) Sockets.synced_start
    have hmem : k ∈ s.pc.pending := not_not.mp hc
    have hsync' := synced_step hs hsync
    simp only [step] at hs
    split_ifs at hs
    cases hs
    refine exists_not_live hsync' ?_ hmem
    rw [Sockets.close_regs, update_self]

/-- Two sockets are ready, and each of the coroutines waits for its own again. -/
theorem dereferenced_live_two :
    ∃ es s, Run.Exec step Spares {} es s ∧ s.pc = .next [⟨some 1, true, false⟩] ∧ s.Live := by
  have h : (Run.runChecked step Spares ({} : EventLoop)
      [.act .openSocket, .act .openSocket, .act (.watchReadable 0 10), .act (.watchReadable 1 11),
        .wait [⟨some 0, true, false⟩, ⟨some 1, true, false⟩], .take, .resume, .act (.watchReadable 0 10),
        .yield]).map (fun s => s.pc) = some (.next [⟨some 1, true, false⟩]) := by
    decide
  obtain ⟨s, hx, he⟩ := Run.exists_exec h
  exact ⟨_, s, hx, he, (dereferenced_live (hx.mono fun _ _ _ => trivial)).1 hx⟩

/-- The coroutine of the first socket closes the second one, which is next in the batch. -/
theorem dereferenced_dead :
    ∃ es s, Run.Exec step (fun _ _ => True) {} es s ∧ ¬s.Live := by
  have h : (Run.runChecked step (fun _ _ => True) ({} : EventLoop)
      [.act .openSocket, .act .openSocket, .act (.watchReadable 0 10), .act (.watchReadable 1 11),
        .wait [⟨some 0, true, false⟩, ⟨some 1, true, false⟩], .take, .resume, .act (.close 1),
        .yield]).map (fun s => (s.pc, (s.sockets.regs 1).isSome)) =
          some (.next [⟨some 1, true, false⟩], false) := by
    decide
  obtain ⟨s, hx, he⟩ := Run.exists_exec h
  refine ⟨_, s, hx, fun hl => ?_⟩
  have hpc : s.pc = .next [⟨some 1, true, false⟩] := congrArg Prod.fst he
  have hdead : (s.sockets.regs 1).isSome = false := congrArg Prod.snd he
  rw [Live, hpc] at hl
  rw [hl 1 rfl] at hdead
  cases hdead

end EventLoop

end Nhttp.Async
