import Nhttp.Server.H2.Lock

/-!
# Whole frames on the wire

As long as no wire write throws, whatever the order of the calls of `send_frame`:

* `Frames`: the wire holds the frames in the order of the calls, up to what is still to be written.
* **`sendFrame_fifo`**: frames are whole and in order, everyone who waits is resumed once and in turn,
  and the lock is free exactly when nobody has it or waits for it.
-/

namespace Nhttp.Server

open Octets Protocol Http2

namespace H2

def WritesReturn (_ : H2) (e : Event) : Prop := e.writeFails = false

instance (s : H2) (e : Event) : Decidable (s.WritesReturn e) :=
  inferInstanceAs (Decidable (e.writeFails = false))

/-- The octets a party has in front of it, all of its frame if it waits for the lock. -/
def pending (s : H2) (who : Sender) : Bytes :=
  match s.sendingOf who with
  | some (.queued out) => out
  | some (.writing left) => left
  | _ => []

/-- The wire, and what is still to be written by the holder of the lock and by those that wait. -/
def Frames (s : H2) : Prop :=
  ∃ left, (s.locked = false → left = []) ∧
    (∀ who, s.phase who = some .holding → s.pending who = left) ∧
    s.wire ++ (left ++ s.waiters.flatMap s.pending) = s.frames.flatMap Frame.bytes

/-- Who was suspended on the writer lock, in the order of the calls. -/
def joinedIn (s : H2) (es : List Event) : List Sender :=
  Run.collect H2.step (fun s s' => FifoLock.Output.joined s.output s'.output) s es

def resumedIn (s : H2) (es : List Event) : List Sender :=
  Run.collect H2.step (fun s s' => FifoLock.Output.resumed s.output s'.output) s es

/-! ## The order of the frames -/

variable {s : H2} {who : Sender} {es : List Event}

theorem pending_of_waiting {out : Bytes} (h : s.claim who = some (.waiting out)) : s.pending who = out := by
  rw [pending, claim_eq_waiting.mp h]

theorem pending_of_holding {left : Bytes} (h : s.claim who = some (.holding left)) : s.pending who = left := by
  rw [pending, claim_eq_holding.mp h]

theorem frames_of_serial (h : s.LockOk) (hs : s.output.Serial) : s.Frames := by
  obtain ⟨left, hfree, hleft, he⟩ := hs
  refine ⟨left, hfree, fun who hw => ?_, ?_⟩
  · obtain ⟨x, hx⟩ := sendingOf_of_phase hw
    have hc := claim_eq_holding.mpr hx
    rw [pending_of_holding hc]
    exact hleft who x hc
  · have hmsg : s.waiters.flatMap s.pending = s.waiters.flatMap s.output.message := by
      refine List.flatMap_congr fun who hw => ?_
      obtain ⟨out, ho⟩ := waiting_of_mem h hw
      rw [pending_of_waiting ho, FifoLock.Output.message, show s.output.claim who = _ from ho]
    rw [hmsg, List.flatMap_def]
    exact he

theorem lockOk_serial {b : Bytes}
    (h : Run.Exec H2.step WritesReturn (start b) es s) : s.LockOk ∧ s.output.Serial := by
  refine h.inv (I := fun s => s.LockOk ∧ s.output.Serial) (fun s e s' hc hs hi => ?_)
    ⟨lockOk_start b, [], fun _ => rfl, fun who x hx => ?_, rfl⟩
  · exact ⟨hi.1.step hc hs, (outputMove_of_step hi.1 hc hs).serial (lockOk_iff.mp hi.1) hi.2⟩
  · have hn : (start b).claim who = none := by
      cases who <;> simp [start, claim, LoopPc.claim]
    rw [show (start b).output.claim who = none from hn] at hx
    cases hx

/-! ## The order of the parties -/

theorem waiters_balance {s' : H2} (h : s.LockOk) (hx : Run.Exec H2.step WritesReturn s es s') :
    s.waiters ++ s.joinedIn es = s.resumedIn es ++ s'.waiters :=
  hx.collect_balance (I := LockOk) (q := H2.waiters)
    (fun _ _ _ hc hs hi =>
      ⟨hi.step hc hs, (outputMove_of_step hi hc hs).queue (lockOk_iff.mp hi)⟩) h

theorem exists_shorter (h : s.LockOk) (hw : s.waiters ≠ []) :
    ∃ who k s', s.step (.write who k) = some s' ∧ s'.waiters.length < s.waiters.length := by
  have hlocked : s.locked = true := by
    cases hl : s.locked with
    | true => rfl
    | false => exact absurd (h.free hl) hw
  obtain ⟨who, hwho⟩ := h.holding.mp hlocked
  obtain ⟨left, hleft⟩ := sendingOf_of_phase hwho
  obtain ⟨a, as, hq⟩ := List.exists_cons_of_ne_nil hw
  refine ⟨who, left.length, _, writeStep_all hleft, ?_⟩
  obtain ⟨-, hq1, -, -⟩ := setSending_lock { s with wire := s.wire ++ left } .written who
  rw [unlock_of_cons (hq1.trans hq), (grant_lock _ _).2.1, hq]
  exact Nat.lt_succ_self _

theorem exists_resumed (h : s.LockOk) (hw : who ∈ s.waiters) :
    ∃ es s', Run.Exec H2.step WritesReturn s es s' ∧ who ∈ s.resumedIn es := by
  obtain ⟨es, s', hx, hg⟩ : ∃ es s', Run.Exec H2.step WritesReturn s es s' ∧ s'.waiters = [] :=
    Run.Exec.of_progress (I := LockOk) (G := fun s => s.waiters = []) Nat.lt_wfRel.wf
      (fun s => s.waiters.length) (fun _ _ _ hc hs hi => hi.step hc hs)
      (fun s hi hg => by
        obtain ⟨who, k, s', hs, hlt⟩ := exists_shorter hi hg
        exact ⟨.write who k, s', rfl, hs, hlt⟩) s h
  refine ⟨es, s', hx, ?_⟩
  have hb := waiters_balance h hx
  rw [hg, List.append_nil] at hb
  rw [← hb]
  exact List.mem_append_left _ hw

/-- **Frames are written whole, in the order of the `send_frame` calls**, in every run without a
wire write that throws. -/
theorem sendFrame_fifo {b : Bytes} {es : List Event} {s : H2}
    (h : Run.Exec H2.step WritesReturn (start b) es s) :
    -- the octets on the wire, at any moment and when nobody is in a `send_frame`
    s.Frames ∧ (s.locked = false → s.wire = s.frames.flatMap Frame.bytes) ∧
      -- whoever is suspended is resumed once and in turn
      (start b).joinedIn es = (start b).resumedIn es ++ s.waiters ∧ s.waiters.Nodup ∧
      (∀ who, s.phase who = some .waiting ↔ who ∈ s.waiters) ∧
      (∀ who ∈ s.waiters, ∃ es' s', Run.Exec H2.step WritesReturn s es' s' ∧
        who ∈ s.resumedIn es') ∧
      -- the flag
      (s.locked = false ↔ (∀ who, s.phase who ≠ some .holding) ∧ s.waiters = []) := by
  obtain ⟨hok, hser⟩ := lockOk_serial h
  have hframes := frames_of_serial hok hser
  refine ⟨hframes, fun hl => ?_, waiters_balance (lockOk_start b) h, hok.nodup, hok.waiting,
    fun who hw => exists_resumed hok hw, hok.free_iff⟩
  obtain ⟨left, hfree, -, he⟩ := hframes
  rw [hfree hl, hok.free hl] at he
  simpa using he

/-- A response and a PING acknowledgement wait for a response of which the wire has taken three octets. -/
theorem sendFrame_fifo_contended :
    ∃ es s, Run.Exec H2.step WritesReturn
        (start (requestsOn [1, 3] ++ (⟨.ping, 0, 0, List.replicate 8 0⟩ : Frame).bytes)) es s ∧
      s.waiters = [.task 1, .loop] ∧
      (start (requestsOn [1, 3] ++ (⟨.ping, 0, 0, List.replicate 8 0⟩ : Frame).bytes)).joinedIn es =
        (start (requestsOn [1, 3] ++ (⟨.ping, 0, 0, List.replicate 8 0⟩ : Frame).bytes)).resumedIn es ++
          s.waiters ∧
      ∃ es' s', Run.Exec H2.step WritesReturn s es' s' ∧ Sender.loop ∈ s.resumedIn es' := by
  have h : (Run.runChecked H2.step WritesReturn
      (start (requestsOn [1, 3] ++ (⟨.ping, 0, 0, List.replicate 8 0⟩ : Frame).bytes))
      (dispatchEvents 2 ++ [.handlerReturn 0 (makeResponse 200), .resume 0, .write (.task 0) 3,
        .handlerReturn 1 (makeResponse 200), .resume 1, .loop, .loop])).map
        (fun s => s.waiters) = some [.task 1, .loop] := by
    decide +kernel
  obtain ⟨s, hx, hq⟩ := Run.exists_exec h
  obtain ⟨-, -, hj, -, -, hr, -⟩ := sendFrame_fifo hx
  exact ⟨_, s, hx, hq, hj, hr .loop (by rw [hq]; decide)⟩

end H2

end Nhttp.Server
