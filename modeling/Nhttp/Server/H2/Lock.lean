import Nhttp.Lib.FifoLock
import Nhttp.Server.H2.Moves

/-!
# The writer lock of an HTTP/2 connection

`write_lock_` is a lock with a queue (`FifoLock`), whose parties are the loop and the response
coroutines, and whose holder writes a frame to the wire.

* `outputMove_of_step`: as long as no wire write throws, a step does to it what a lock allows.
* `LockOk.step`: whoever waits is in the queue behind a `send_frame` that is writing.
-/

namespace Nhttp.Server

open Octets Protocol Http2 List Function

/-! ## Phases -/

def Sending.phase : Sending → Option FifoLock.Phase
  | .queued _ => some .waiting
  | .writing _ => some .holding
  | .written => none

def LoopPc.phase : LoopPc → Option FifoLock.Phase
  | .sending st _ => st.phase
  | _ => none

def TaskPc.phase : TaskPc → Option FifoLock.Phase
  | .sending st _ => st.phase
  | _ => none

/-- What a `send_frame` has still to write. -/
def Sending.claim : Sending → Option (FifoLock.Claim UInt8)
  | .queued out => some (.waiting out)
  | .writing left => some (.holding left)
  | .written => none

def LoopPc.claim : LoopPc → Option (FifoLock.Claim UInt8)
  | .sending st _ => st.claim
  | _ => none

def TaskPc.claim : TaskPc → Option (FifoLock.Claim UInt8)
  | .sending st _ => st.claim
  | _ => none

def Event.fails : Event → Bool
  | .recvFail | .writeFail _ | .handlerFail _ | .bodyFail _ => true
  | _ => false

theorem Event.writeFails_of_fails {e : Event} (h : e.fails = false) : e.writeFails = false := by
  cases e with
  | writeFail => cases h
  | _ => rfl

/-- The frame of a `send_frame` call. -/
def Action.frame : Action → Option Frame
  | .sent _ f => some f
  | _ => none

namespace H2

def phase (s : H2) : Sender → Option FifoLock.Phase
  | .loop => s.loop.phase
  | .task t => (s.tasks[t]?).bind fun x => x.pc.phase

def LockOk (s : H2) : Prop := FifoLock.Ok s.locked s.waiters s.phase

/-- What a party has still to write. -/
def claim (s : H2) : Sender → Option (FifoLock.Claim UInt8)
  | .loop => s.loop.claim
  | .task t => (s.tasks[t]?).bind fun x => x.pc.claim

/-- The frames of all `send_frame` calls, in the order of the calls. -/
def frames (s : H2) : List Frame := s.log.reverse.filterMap Action.frame

def output (s : H2) : FifoLock.Output Sender UInt8 where
  locked := s.locked
  waiters := s.waiters
  claim := s.claim
  out := s.wire
  calls := s.frames.map Frame.bytes

section Claim

variable {s s' : H2}

theorem claim_eq (s : H2) (who : Sender) : s.claim who = (s.sendingOf who).bind Sending.claim := by
  cases who with
  | loop => cases hl : s.loop <;> simp [claim, sendingOf, LoopPc.claim, hl]
  | task t =>
    cases hx : s.tasks[t]? with
    | none => simp [claim, sendingOf, hx]
    | some x =>
      obtain ⟨ref, pc⟩ := x
      cases pc <;> simp [claim, sendingOf, TaskPc.claim, hx]

variable {who : Sender}

theorem claim_eq_waiting {out : Bytes} :
    s.claim who = some (.waiting out) ↔ s.sendingOf who = some (.queued out) := by
  rw [claim_eq]
  cases s.sendingOf who with
  | none => simp
  | some st => cases st <;> simp [Sending.claim]

theorem claim_eq_holding {left : Bytes} :
    s.claim who = some (.holding left) ↔ s.sendingOf who = some (.writing left) := by
  rw [claim_eq]
  cases s.sendingOf who with
  | none => simp
  | some st => cases st <;> simp [Sending.claim]

theorem phase_output (s : H2) : s.output.phase = s.phase := by
  have hst : ∀ st : Sending, st.claim.map FifoLock.Claim.phase = st.phase := by
    intro st
    cases st <;> rfl
  funext who
  cases who with
  | loop =>
    cases hl : s.loop with
    | sending st k =>
      simpa [FifoLock.Output.phase, output, claim, phase, hl, LoopPc.claim, LoopPc.phase] using hst st
    | _ => simp [FifoLock.Output.phase, output, claim, phase, hl, LoopPc.claim, LoopPc.phase]
  | task t =>
    cases hx : s.tasks[t]? with
    | none => simp [FifoLock.Output.phase, output, claim, phase, hx]
    | some x =>
      obtain ⟨ref, pc⟩ := x
      cases pc with
      | sending st k =>
        simpa [FifoLock.Output.phase, output, claim, phase, hx, TaskPc.claim, TaskPc.phase] using hst st
      | _ => simp [FifoLock.Output.phase, output, claim, phase, hx, TaskPc.claim, TaskPc.phase]

theorem lockOk_iff : s.LockOk ↔ s.output.Ok := by
  unfold LockOk FifoLock.Output.Ok
  rw [phase_output]
  rfl

theorem claim_update_loop (ht : s'.tasks = s.tasks) :
    s'.claim = update s.claim .loop s'.loop.claim := by
  funext who
  cases who with
  | loop => simp [claim]
  | task t => simp [claim, ht]

theorem claim_update_task {t : ℕ} {x : Task} {g : Task → Task} (hl : s'.loop = s.loop)
    (hx : s.tasks[t]? = some x) (ht : s'.tasks = s.tasks.modify t g) :
    s'.claim = update s.claim (.task t) (g x).pc.claim := by
  funext who
  cases who with
  | loop => simp [claim, hl]
  | task i =>
    simp only [claim, ht, getElem?_modify]
    by_cases hi : t = i
    · subst hi
      simp [hx]
    · have hne : Sender.task i ≠ Sender.task t := fun h => hi (Sender.task.inj h).symm
      rw [update_of_ne hne]
      simp [hi, claim]

theorem frames_cons (s : H2) (a : Action) (s' : H2) (h : s'.log = a :: s.log) :
    s'.frames = s.frames ++ a.frame.toList := by
  unfold frames
  rw [h, reverse_cons, filterMap_append]
  cases a <;> rfl

theorem output_of_log_eq (s : H2) {lo : Bool} {wa : List Sender} {w : Bytes}
    {c : Sender → Option (FifoLock.Claim UInt8)} (hg : s'.log = s.log) (hl : s'.locked = lo)
    (hq : s'.waiters = wa) (hc : s'.claim = c) (hw : s'.wire = w) :
    s'.output = { s.output with locked := lo, waiters := wa, claim := c, out := w } := by
  unfold output frames
  rw [hg, hl, hq, hc, hw]

end Claim

/-! ## `send_frame` -/

theorem output_loopSend (s : H2) (f : Frame) (k : LoopCont) :
    (s.loopSend f k).output =
      { s.output with
        locked := true
        waiters := if s.locked then s.waiters ++ [.loop] else s.waiters
        claim := update s.claim .loop
          (some (if s.locked then .waiting f.bytes else .holding f.bytes))
        calls := s.output.calls ++ [f.bytes] } := by
  have hf : (s.loopSend f k).frames = s.frames ++ [f] := by
    obtain ⟨lo, wa, st, he⟩ := loopSend_eq s f k
    rw [he]
    exact frames_cons s (.sent none f) _ rfl
  have hc : (s.loopSend f k).claim = update s.claim .loop (s.loopSend f k).loop.claim := by
    refine claim_update_loop ?_
    obtain ⟨lo, wa, st, he⟩ := loopSend_eq s f k
    rw [he]
  unfold output
  rw [hf, hc]
  unfold loopSend acquire record
  cases s.locked <;> simp [LoopPc.claim, Sending.claim]

variable {s s' : H2} {r : Option (ℕ × ℕ)}

theorem taskSend_of_locked (h : s.locked = true) (t ref : ℕ) (f : Frame) (k : TaskCont) :
    s.taskSend t ref f k =
      { s with
        waiters := s.waiters ++ [.task t]
        tasks := s.tasks.modify t fun x => { x with pc := .sending (.queued f.bytes) k }
        log := .sent (some ref) f :: s.log } := by
  simp [H2.taskSend, acquire, record, setTask, h]

theorem taskSend_of_free (h : s.locked = false) (t ref : ℕ) (f : Frame) (k : TaskCont) :
    s.taskSend t ref f k =
      { s with
        locked := true
        tasks := s.tasks.modify t fun x => { x with pc := .sending (.writing f.bytes) k }
        log := .sent (some ref) f :: s.log } := by
  simp [H2.taskSend, acquire, record, setTask, h]

theorem output_taskSend {t : ℕ} {x : Task} (hx : s.tasks[t]? = some x) (ref : ℕ) (f : Frame) (k : TaskCont) :
    (s.taskSend t ref f k).output = { s.output with
        locked := true
        waiters := if s.locked then s.waiters ++ [.task t] else s.waiters
        claim := update s.claim (.task t)
          (some (if s.locked then .waiting f.bytes else .holding f.bytes))
        calls := s.output.calls ++ [f.bytes] } := by
  have hf : (s.taskSend t ref f k).frames = s.frames ++ [f] := by
    obtain ⟨lo, wa, st, he⟩ := taskSend_eq s t ref f k
    rw [he]
    exact frames_cons s (.sent (some ref) f) _ rfl
  unfold output
  rw [hf]
  cases hl : s.locked with
  | true =>
    have hc : (s.taskSend t ref f k).claim =
        update s.claim (.task t) (some (.waiting f.bytes)) := by
      rw [taskSend_of_locked hl]
      exact claim_update_task (g := fun x => { x with pc := .sending (.queued f.bytes) k }) rfl hx rfl
    rw [hc, taskSend_of_locked hl]
    simp [hl]
  | false =>
    have hc : (s.taskSend t ref f k).claim =
        update s.claim (.task t) (some (.holding f.bytes)) := by
      rw [taskSend_of_free hl]
      exact claim_update_task (g := fun x => { x with pc := .sending (.writing f.bytes) k }) rfl hx rfl
    rw [hc, taskSend_of_free hl]
    simp

variable {who : Sender} {left payload : Bytes} {fh : FrameHeader} {e : Event}

/-- A call of `send_frame` by a party that has nothing to do with the lock. -/
theorem outputMove_call {x : Bytes} (hi : s.claim who = none) (he : s'.output = { s.output with
        locked := true
        waiters := if s.locked then s.waiters ++ [who] else s.waiters
        claim := update s.claim who (some (if s.locked then .waiting x else .holding x))
        calls := s.output.calls ++ [x] }) : s.output.Move s'.output := by
  rw [he]
  cases hl : s.locked with
  | true =>
    have hm := FifoLock.Output.Move.wait (v := s.output) who x hl hi
    rw [show s.output.locked = true from hl] at hm
    exact hm
  | false => exact .acquire who x hl hi

theorem outputMove_loopSend (hi : s.loop.claim = none) (f : Frame) (k : LoopCont) :
    s.output.Move (s.loopSend f k).output := by
  have hc : s.claim .loop = none := hi
  exact outputMove_call hc (output_loopSend s f k)

theorem outputMove_taskSend {t : ℕ} {x : Task} (hx : s.tasks[t]? = some x)
    (hi : x.pc.claim = none) (ref : ℕ) (f : Frame) (k : TaskCont) :
    s.output.Move (s.taskSend t ref f k).output :=
  outputMove_call (by simp [claim, hx, hi]) (output_taskSend hx ref f k)

/-! ## Wire writes -/

theorem sendingOf_of_phase (h : s.phase who = some .holding) :
    ∃ left, s.sendingOf who = some (.writing left) := by
  rw [← phase_output] at h
  obtain ⟨c, hc, hp⟩ := Option.map_eq_some_iff.mp h
  cases c with
  | waiting => cases hp
  | holding left => exact ⟨left, claim_eq_holding.mp hc⟩

theorem waiting_of_mem (h : s.LockOk) (hm : who ∈ s.waiters) :
    ∃ out, s.claim who = some (.waiting out) := by
  have hp := (h.waiting who).mpr hm
  rw [← phase_output] at hp
  obtain ⟨c, hc, hp⟩ := Option.map_eq_some_iff.mp hp
  cases c with
  | waiting out => exact ⟨out, hc⟩
  | holding => cases hp

theorem claim_setSending (st : Sending) (h : s.claim who ≠ none) :
    (s.setSending st who).claim = update s.claim who st.claim := by
  cases who with
  | loop =>
    cases hl : s.loop with
    | sending st' k =>
      have hu : (s.setSending st .loop).claim =
          update s.claim .loop (s.setSending st .loop).loop.claim :=
        claim_update_loop (by simp [setSending, hl])
      rw [hu]
      simp [setSending, hl, LoopPc.claim]
    | _ => simp [claim, LoopPc.claim, hl] at h
  | task t =>
    cases hx : s.tasks[t]? with
    | none => simp [claim, hx] at h
    | some x =>
      have hu : (s.setSending st (.task t)).claim = update s.claim (.task t) _ :=
        claim_update_task rfl hx rfl
      rw [hu]
      obtain ⟨ref, pc⟩ := x
      cases pc with
      | sending st' k => rfl
      | _ => simp [claim, TaskPc.claim, hx] at h

theorem claim_grant {out : Bytes} (h : s.claim who = some (.waiting out)) :
    (s.grant who).claim = update s.claim who (some (.holding out)) := by
  have hq := claim_eq_waiting.mp h
  cases who with
  | loop =>
    cases hl : s.loop with
    | sending st k =>
      simp only [sendingOf, hl, Option.some.injEq] at hq
      subst hq
      have hu : (s.grant .loop).claim =
          update s.claim .loop (s.grant .loop).loop.claim :=
        claim_update_loop (by simp [grant, hl])
      rw [hu]
      simp [grant, hl, LoopPc.claim, Sending.claim]
    | _ => simp [sendingOf, hl] at hq
  | task t =>
    cases hx : s.tasks[t]? with
    | none => simp [sendingOf, hx] at hq
    | some x =>
      have hu : (s.grant (.task t)).claim = update s.claim (.task t) _ :=
        claim_update_task rfl hx rfl
      rw [hu]
      obtain ⟨ref, pc⟩ := x
      cases pc with
      | sending st k =>
        simp only [sendingOf, hx, Option.some.injEq] at hq
        subst hq
        rfl
      | _ => simp [sendingOf, hx] at hq

theorem setSending_lock (s : H2) (st : Sending) (who : Sender) :
    (s.setSending st who).locked = s.locked ∧ (s.setSending st who).waiters = s.waiters ∧
      (s.setSending st who).wire = s.wire ∧ (s.setSending st who).log = s.log := by
  cases who with
  | loop => cases hl : s.loop <;> simp [setSending, hl]
  | task t => exact ⟨rfl, rfl, rfl, rfl⟩

theorem grant_lock (s : H2) (who : Sender) :
    (s.grant who).locked = s.locked ∧ (s.grant who).waiters = s.waiters ∧
      (s.grant who).wire = s.wire ∧ (s.grant who).log = s.log := by
  cases who with
  | loop =>
    cases hl : s.loop with
    | sending st k => cases st <;> simp [grant, hl]
    | _ => simp [grant, hl]
  | task t => exact ⟨rfl, rfl, rfl, rfl⟩

theorem unlock_of_nil (h : s.waiters = []) : s.unlock = { s with locked := false } := by
  unfold unlock
  rw [h]

theorem unlock_of_cons {b : Sender} {bs : List Sender} (h : s.waiters = b :: bs) :
    s.unlock = ({ s with waiters := bs } : H2).grant b := by
  unfold unlock
  rw [h]

theorem output_unlock (h : s.LockOk) (hw : s.claim who = some (.holding left)) :
    (s.waiters = [] ∧ (({ s with wire := s.wire ++ left } : H2).setSending .written who).unlock.output =
        { s.output with
          locked := false
          claim := update s.claim who none
          out := s.wire ++ left }) ∨
      ∃ b bs y, s.waiters = b :: bs ∧ s.claim b = some (.waiting y) ∧ b ≠ who ∧
        (({ s with wire := s.wire ++ left } : H2).setSending .written who).unlock.output =
          { s.output with
            waiters := bs
            claim := update (update s.claim who none) b (some (.holding y))
            out := s.wire ++ left } := by
  have hok := lockOk_iff.mp h
  have hph : s.output.phase who = some .holding := FifoLock.Output.phase_eq (v := s.output) hw
  -- the state in front of `unlock`
  obtain ⟨s₁, hs1⟩ : ∃ s₁, s₁ = ({ s with wire := s.wire ++ left } : H2).setSending .written who :=
    ⟨_, rfl⟩
  obtain ⟨hl1, hq1, hw1, hg1⟩ := setSending_lock { s with wire := s.wire ++ left } .written who
  have hc1 : s₁.claim = update s.claim who none := by
    rw [hs1]
    refine claim_setSending .written ?_
    rw [show ({ s with wire := s.wire ++ left } : H2).claim who = s.claim who from rfl, hw]
    simp
  rw [← hs1] at hl1 hq1 hw1 hg1 ⊢
  cases hq : s.waiters with
  | nil =>
    have ho : ({ s₁ with locked := false } : H2).output = _ := output_of_log_eq s hg1 rfl hq1 hc1 hw1
    rw [unlock_of_nil (hq1.trans hq), ho]
    exact .inl ⟨rfl, rfl⟩
  | cons b bs =>
    have hmem : b ∈ s.output.waiters := by
      rw [show s.output.waiters = b :: bs from hq]
      exact mem_cons_self
    obtain ⟨y, hy⟩ := waiting_of_mem h hmem
    have hb : b ≠ who := hok.ne_of_mem hmem (by simp [hph])
    have hcb : ({ s₁ with waiters := bs } : H2).claim b = some (.waiting y) := by
      refine (congrFun hc1 b).trans ?_
      rw [update_of_ne hb, hy]
    obtain ⟨hl2, hq2, hw2, hg2⟩ := grant_lock { s₁ with waiters := bs } b
    refine .inr ⟨b, bs, y, rfl, hy, hb, ?_⟩
    rw [unlock_of_cons (hq1.trans hq),
      output_of_log_eq s (hg2.trans hg1) (hl2.trans hl1) hq2 (claim_grant hcb) (hw2.trans hw1),
      show ({ s₁ with waiters := bs } : H2).claim = s₁.claim from rfl, hc1]
    rfl

theorem outputMove_unlock (h : s.LockOk) (hw : s.claim who = some (.holding left)) :
    s.output.Move
      (({ s with wire := s.wire ++ left } : H2).setSending .written who).unlock.output := by
  obtain ⟨hq, he⟩ | ⟨b, bs, y, hq, hy, -, he⟩ := output_unlock h hw
  · rw [he]
    exact .release who left hw hq
  · rw [he]
    exact .handOver who left b bs y hw hq hy

theorem writeStep_all (h : s.sendingOf who = some (.writing left)) :
    s.writeStep who left.length =
      some (({ s with wire := s.wire ++ left } : H2).setSending .written who).unlock := by
  unfold H2.writeStep
  rw [h]
  simp

theorem outputMove_writeStep (h : s.LockOk) {k : ℕ}
    (hs : s.writeStep who k = some s') : s.output.Move s'.output := by
  unfold H2.writeStep at hs
  cases hq : s.sendingOf who with
  | none =>
    rw [hq] at hs
    cases hs
  | some st =>
    rw [hq] at hs
    cases st with
    | writing left =>
      have hw := claim_eq_holding.mpr hq
      dsimp only at hs
      split_ifs at hs with hk hd
      · cases hs
        have ht : left.take k = left := take_of_length_le (drop_eq_nil_iff.mp hd)
        rw [ht]
        exact outputMove_unlock h hw
      · cases hs
        obtain ⟨hl1, hq1, hw1, hg1⟩ := setSending_lock { s with wire := s.wire ++ left.take k }
          (.writing (left.drop k)) who
        have hc : ({ s with wire := s.wire ++ left.take k } : H2).claim who ≠ none := by
          rw [show ({ s with wire := s.wire ++ left.take k } : H2).claim who = s.claim who from rfl, hw]
          simp
        rw [output_of_log_eq s hg1 hl1 hq1 (claim_setSending _ hc) hw1]
        refine .write who (left.take k) (left.drop k) ?_
        rw [take_append_drop]
        exact hw
    | _ => cases hs

/-! ## Handlers -/

/-- A change that no party sees at the lock. -/
structure SameLock (s s' : H2) : Prop where
  locked : s'.locked = s.locked
  waiters : s'.waiters = s.waiters
  loop : s'.loop = s.loop
  wire : s'.wire = s.wire
  frames : s'.frames = s.frames
  tasks : ∀ t, s'.claim (.task t) = s.claim (.task t)

theorem SameLock.trans {s₁ : H2} (h : SameLock s s₁) (h' : SameLock s₁ s') : SameLock s s' :=
  ⟨h'.locked.trans h.locked, h'.waiters.trans h.waiters, h'.loop.trans h.loop, h'.wire.trans h.wire,
    h'.frames.trans h.frames, fun t => (h'.tasks t).trans (h.tasks t)⟩

theorem sameLock_of_eq (hl : s'.locked = s.locked) (hw : s'.waiters = s.waiters)
    (hp : s'.loop = s.loop) (ho : s'.wire = s.wire) (hf : s'.frames = s.frames)
    (ht : s'.tasks = s.tasks) : SameLock s s' :=
  ⟨hl, hw, hp, ho, hf, fun t => by simp [claim, ht]⟩

theorem SameLock.setLoop (h : SameLock s s') (hi : s.loop.claim = none) {pc : LoopPc}
    (hp : pc.claim = none) : ({ s' with loop := pc } : H2).output = s.output := by
  have hc : ({ s' with loop := pc } : H2).claim = s.claim := by
    funext who
    cases who with
    | loop => exact hp.trans hi.symm
    | task t => exact h.tasks t
  have hf : ({ s' with loop := pc } : H2).frames = s.frames := h.frames
  unfold output
  rw [hc, hf]
  rw [h.locked, h.waiters, h.wire]

theorem SameLock.output (h : SameLock s s') : s'.output = s.output := by
  have hc : s'.claim = s.claim := by
    funext who
    cases who with
    | loop => exact congrArg LoopPc.claim h.loop
    | task t => exact h.tasks t
  unfold H2.output
  rw [hc, h.frames, h.locked, h.waiters, h.wire]

theorem SameLock.loopSend (h : SameLock s s') (hi : s.loop.claim = none) (f : Frame)
    (k : LoopCont) : s.output.Move (s'.loopSend f k).output := by
  rw [← h.output]
  exact outputMove_loopSend (by rw [h.loop, hi]) f k

theorem sameLock_dispatchStream (s : H2) (ref : ℕ) : SameLock s (s.dispatchStream ref) := by
  obtain ⟨f, pc, called, -, -, hu, hcalled, he⟩ := dispatchStream_eq s ref
  rw [he]
  refine ⟨rfl, rfl, rfl, rfl, ?_, fun t => ?_⟩
  · obtain rfl | ⟨req, body, rfl⟩ := hcalled <;> simp [frames, Action.frame]
  have hp : pc.claim = none := by
    cases pc with
    | sending => cases hu
    | _ => rfl
  simp only [claim]
  by_cases ht : t < s.tasks.length
  · rw [getElem?_append_left ht]
  · rw [getElem?_append_right (Nat.le_of_not_lt ht), getElem?_eq_none (Nat.le_of_not_lt ht)]
    cases t - s.tasks.length with
    | zero => simp [hp]
    | succ n => simp

theorem sameLock_wake (s : H2) (ref : ℕ) : SameLock s (s.wake ref) := by
  unfold wake
  cases (s.object ref).windowWaiter with
  | none => exact sameLock_of_eq rfl rfl rfl rfl rfl rfl
  | some t =>
    refine ⟨rfl, rfl, rfl, rfl, rfl, fun i => ?_⟩
    simp only [claim, getElem?_modify]
    cases s.tasks[i]? with
    | none => rfl
    | some x =>
      obtain ⟨r, pc⟩ := x
      by_cases hi : t = i
      · cases pc <;> simp [hi, TaskPc.claim]
      · simp [hi]

theorem sameLock_begin {s₀ : H2} (hb : Begin s fh r s₀) : SameLock s s₀ := by
  cases hb with
  | opened | credit | creditStream =>
    refine sameLock_of_eq rfl rfl rfl rfl ?_ rfl
    simp [frames, openStream, record, modifyObject, Action.frame]
  | _ => exact sameLock_of_eq rfl rfl rfl rfl rfl rfl

theorem sameLock_work (hw : Work fh r s s') : SameLock s s' := by
  induction hw with
  | refl | block | object => exact sameLock_of_eq rfl rfl rfl rfl rfl rfl
  | trans _ _ h h' => exact h.trans h'
  | dispatched s => exact sameLock_dispatchStream s _
  | woken s ref => exact sameLock_wake s ref

theorem Handles.sameLock (hh : Handles s fh r s') : SameLock s s' := by
  obtain ⟨s₀, hb, hw⟩ := hh
  exact (sameLock_begin hb).trans (sameLock_work hw)

/-! ## Steps -/

theorem outputMove_of_eq (h : s'.output = s.output) : s.output.Move s'.output := by
  rw [h]
  exact .skip

theorem LoopMove.claim_eq_none (hm : LoopMove s s') : s.loop.claim = none := by
  cases hm with
  | preface _ hl | badPreface hl | header hl | frame _ hl | sent _ hl =>
    rw [hl]
    rfl

theorem outputMove_loop (hm : LoopMove s s') : s.output.Move s'.output := by
  have hi := hm.claim_eq_none
  obtain ⟨n, fh, r, s₁, -, hh, hl⟩ := hm.phases
  have ht : SameLock s (s.takeBuffer n).2 := sameLock_of_eq rfl rfl rfl rfl rfl rfl
  have hs := ht.trans hh.sameLock
  cases hl with
  | go pc hp =>
    refine outputMove_of_eq (hs.setLoop hi ?_)
    obtain rfl | rfl | ⟨bs, rfl⟩ := hp <;> rfl
  | send f k => exact hs.loopSend hi f k

section Task

variable {s s₁ s' : H2} {t : ℕ} {x : Task}

theorem output_setTask (hx : s.tasks[t]? = some x) (hi : x.pc.claim = none) {pc : TaskPc}
    (hp : pc.claim = none) : (s.setTask t pc).output = s.output := by
  have hu : (s.setTask t pc).claim = update s.claim (.task t) pc.claim :=
    claim_update_task (g := fun x => { x with pc := pc }) rfl hx rfl
  have hn : s.claim (.task t) = none := by simp [claim, hx, hi]
  have hc : (s.setTask t pc).claim = s.claim := by
    rw [hu, hp, ← hn, update_eq_self]
  unfold output
  rw [hc]
  rfl

theorem outputMove_nextChunk (hx : s.tasks[t]? = some x) (hi : x.pc.claim = none) (ref : ℕ)
    (w : Writer) : s.output.Move (s.nextChunk t ref w).output := by
  unfold H2.nextChunk
  split_ifs
  · exact outputMove_taskSend hx hi _ _ _
  · exact outputMove_of_eq (output_setTask hx hi rfl)

/-- A coroutine that is not in a `send_frame`, or has just left one, goes on. -/
theorem outputMove_task (hx : s.tasks[t]? = some x) (hi : x.pc.claim = none)
    (hm : TaskMove s t x s') : s.output.Move s'.output := by
  cases hm with
  | answer => exact outputMove_of_eq (output_setTask hx hi rfl)
  | finish =>
    have he : ((s.eraseStream (s.object x.ref).id).setTask t .done).output = _ :=
      output_setTask hx hi rfl
    exact outputMove_of_eq he
  | respond => exact outputMove_taskSend hx hi _ _ _
  | start w => exact outputMove_nextChunk hx hi _ _
  | read => exact outputMove_of_eq (output_setTask hx hi rfl)
  | readEnd => exact outputMove_taskSend hx hi _ _ _
  | check w got chunk =>
    unfold checkWindow
    split_ifs
    · exact outputMove_of_eq (output_setTask
        (s := s.modifyObject x.ref fun o => { o with windowWaiter := some t }) hx hi rfl)
    · exact outputMove_taskSend hx hi _ _ _
  | deduct w got n chunk =>
    have hd : (s.deduct x.ref n).output = s.output := by
      refine SameLock.output (sameLock_of_eq rfl rfl rfl rfl ?_ rfl)
      simp [frames, H2.deduct, modifyObject, Action.frame]
    have hx' : (s.deduct x.ref n).tasks[t]? = some x := hx
    rw [← hd]
    unfold continueTask
    dsimp only
    split_ifs
    · exact outputMove_nextChunk hx' hi _ _
    · exact outputMove_nextChunk hx' hi _ _
    · exact outputMove_of_eq (output_setTask hx' hi rfl)

end Task

theorem claim_loop_of_wanted (h : s.readBuffer.length < s.wanted) : s.loop.claim = none := by
  cases hl : s.loop with
  | sending => simp [wanted, hl] at h
  | _ => rfl

theorem outputMove_of_step_of_write
    (h : ∀ who k, s.writeStep who k = some s' → s.output.Move s'.output) (hf : e.writeFails = false)
    (hs : s.step e = some s') : s.output.Move s'.output := by
  have hself : SameLock s s := sameLock_of_eq rfl rfl rfl rfl rfl rfl
  cases e with
  | recv bs =>
    simp only [H2.step] at hs
    split_ifs at hs with hw hb
    · cases hs
      exact outputMove_of_eq (hself.setLoop (claim_loop_of_wanted (by omega)) rfl)
    · cases hs
      exact outputMove_of_eq rfl
  | recvFail =>
    simp only [H2.step] at hs
    split_ifs at hs with hw
    cases hs
    exact outputMove_of_eq (hself.setLoop (claim_loop_of_wanted (by omega)) rfl)
  | loop => exact outputMove_loop (loopMove_of_loopStep hs)
  | write who k => exact h who k hs
  | writeFail => cases hf
  | handlerReturn | handlerFail | bodyRead | bodyFail | resume =>
    obtain ⟨x, hx, -, -, hsend, hm⟩ := taskMove_of_task rfl hs
    refine outputMove_task hx ?_ hm
    cases hp : x.pc with
    | sending st k =>
      obtain rfl | h := hsend st k hp
      · rfl
      · cases h
    | _ => rfl

theorem outputMove_of_step (h : s.LockOk) (hf : e.writeFails = false)
    (hs : s.step e = some s') : s.output.Move s'.output :=
  outputMove_of_step_of_write (fun _ _ hw => outputMove_writeStep h hw) hf hs

/-! ## Runs -/

theorem lockOk_start (b : Bytes) : (start b).LockOk := by
  have hp : ∀ who, (start b).phase who = none := by
    intro who
    cases who <;> simp [start, phase, LoopPc.phase]
  refine ⟨fun who => ?_, nodup_nil, fun _ => rfl, ?_, fun who _ hw => ?_⟩
  · rw [hp]
    simp [start]
  · simp only [hp]
    simp [start]
  · simp [hp] at hw

/-- **The lock stays in order** as long as no wire write throws. -/
theorem LockOk.step (h : s.LockOk) (hf : e.writeFails = false) (hs : s.step e = some s') : s'.LockOk :=
  lockOk_iff.mpr ((outputMove_of_step h hf hs).ok (lockOk_iff.mp h))

end H2

end Nhttp.Server
