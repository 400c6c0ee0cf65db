import Nhttp.Server.H2.Moves

/-!
# The end of `run`

`connection_h2::run` waits for none of the coroutines it has started.

* `endsRun`: the events that make `run` return.
* **`tasks_done_of_loop_done`**: if none of them comes while a coroutine is unfinished, no coroutine
  is unfinished when `run` has returned.
-/

namespace Nhttp.Server

open Octets Protocol Http2

/-- `run` has returned, or will after its GOAWAY frame. -/
def LoopPc.leaving : LoopPc → Bool
  | .done | .sending _ .goaway => true
  | _ => false

theorem LoopPc.leaving_erase (pc : LoopPc) : pc.erase.leaving = pc.leaving := by
  cases pc with
  | sending st k => cases k <;> rfl
  | _ => rfl

namespace H2

/-- Every `dispatch_stream` has finished. -/
def AllDone (s : H2) : Prop := ∀ x ∈ s.tasks, x.pc = .done

instance (s : H2) : Decidable s.AllDone := inferInstanceAs (Decidable (∀ x ∈ s.tasks, x.pc = .done))

/-- The events after which `run` returns. -/
def endsRun (s : H2) : Event → Bool
  | .recv bs => bs.isEmpty
  | .recvFail => true
  | .writeFail who => who == .loop
  | .loop =>
    match s.loop with
    | .preface => s.readBuffer.take clientPreface.length != clientPreface
    | .payload fh =>
      fh.type == .goaway || (s.takeBuffer fh.length).2.refuses fh (s.takeBuffer fh.length).1
    | _ => false
  | _ => false

/-- Nothing ends `run` while a coroutine is unfinished. -/
def EndsJoined (s : H2) (e : Event) : Prop := s.endsRun e = true → s.AllDone

instance (s : H2) (e : Event) : Decidable (s.EndsJoined e) :=
  inferInstanceAs (Decidable (s.endsRun e = true → s.AllDone))

/-! ## Steps -/

theorem AllDone.of_bare {s s' : H2} (h : s.AllDone) (hb : s'.bare = s.bare) : s'.AllDone := by
  intro x hx
  have ht : s'.tasks.map Task.erase = s.tasks.map Task.erase := congrArg H2.tasks hb
  have hmem : x.erase ∈ s.tasks.map Task.erase := ht ▸ List.mem_map_of_mem hx
  obtain ⟨y, hy, he⟩ := List.mem_map.mp hmem
  have hpc : x.pc.erase = y.pc.erase := (congrArg Task.pc he).symm
  rw [h y hy] at hpc
  exact TaskPc.eq_done_of_erase hpc

def Joined (s : H2) : Prop := s.loop.leaving = true → s.AllDone

theorem leaving_finishData (s : H2) (fh : FrameHeader) (ref : ℕ) :
    (s.finishData fh ref).loop.leaving = false := by
  rw [loop_finishData]
  rfl

theorem leaving_loopSend (s : H2) (f : Frame) (k : LoopCont) (hk : k ≠ .goaway) :
    (s.loopSend f k).loop.leaving = false := by
  obtain ⟨lo, wa, st, h⟩ := loopSend_eq s f k
  cases k with
  | goaway => exact absurd rfl hk
  | _ => rfl

theorem FrameMove.joined {s s' : H2} {fh : FrameHeader} {payload : Bytes}
    (h : FrameMove s fh payload s') (hd : fh.type = .goaway ∨ s.refuses fh payload = true → s.AllDone) :
    s'.Joined := by
  intro hl
  cases h with
  | refuse hr =>
    obtain ⟨lo, wa, st, he⟩ := loopSend_eq s
      ⟨.goaway, 0, 0, writeGoawayPayload s.highestStreamId protocolError []⟩ .goaway
    rw [H2.refuse, he]
    exact hd (.inr hr)
  | goaway ht => exact hd (.inl ht)
  | settings | data => rw [leaving_loopSend _ _ _ (by simp)] at hl; cases hl
  | dataEmpty => rw [leaving_finishData] at hl; cases hl
  | ignore | headers | continuation | windowUpdate | rstStream => cases hl

theorem Joined.continueLoop {s : H2} (h : s.Joined) {st : Sending} {k : LoopCont}
    (hk : s.loop = .sending st k) : (s.continueLoop k).Joined := by
  intro hl
  cases k with
  | next => cases hl
  | dataStream => rw [H2.continueLoop, leaving_loopSend _ _ _ (by simp)] at hl; cases hl
  | dataConnection => rw [H2.continueLoop, leaving_finishData] at hl; cases hl
  | goaway => exact h (by rw [hk]; rfl)

theorem Joined.loopMove {s s' : H2} (h : s.Joined) (hm : LoopMove s s') (hc : s.EndsJoined .loop) :
    s'.Joined := by
  cases hm with
  | preface => intro hl; rw [leaving_loopSend _ _ _ (by simp)] at hl; cases hl
  | badPreface hp hb => exact fun _ => hc (by simpa [endsRun, hp] using hb)
  | header => intro hl; cases hl
  | frame fh hp hf => exact hf.joined fun ht => hc (by simpa [endsRun, hp] using ht)
  | sent k hk => exact h.continueLoop hk

theorem Joined.step {s s' : H2} {e : Event} (h : s.Joined) (hc : s.EndsJoined e)
    (hs : s.step e = some s') : s'.Joined := by
  cases move_of_step hs with
  | recv => exact h
  | recvEnd => exact fun _ => hc rfl
  | recvFail => exact fun _ => hc rfl
  | loop hm => exact h.loopMove hm hc
  | write _ _ hb =>
    intro hl
    have he : s'.loop.erase = s.loop.erase := congrArg H2.loop hb
    rw [← LoopPc.leaving_erase, he, LoopPc.leaving_erase] at hl
    exact (h hl).of_bare hb
  | writeFail => exact fun _ => hc rfl
  | task _ t x hx _ hm =>
    intro hl
    rw [hm.loop_eq.1] at hl
    exact absurd (h hl x (List.mem_of_getElem? hx)) hm.pc_ne_done

/-! ## Runs -/

/-- **`run` joins its coroutines** in every run in which nothing ends it early. -/
theorem tasks_done_of_loop_done {b : Bytes} {es : List Event} {s : H2}
    (h : Run.Exec H2.step EndsJoined (start b) es s) (hl : s.loop = .done) :
    ∀ x ∈ s.tasks, x.pc = .done := by
  have hj : s.Joined := h.inv (I := Joined) (fun _ _ _ hc hs hi => hi.step hc hs) (by intro hl; cases hl)
  exact hj (by rw [hl]; rfl)

theorem tasks_done_of_loop_done_answered :
    ∃ es s, Run.Exec H2.step EndsJoined (start (requestsOn [1])) es s ∧ s.loop = .done ∧
      s.tasks.length = 1 ∧ ∀ x ∈ s.tasks, x.pc = .done := by
  have h : (Run.runChecked H2.step EndsJoined (start (requestsOn [1]))
      (dispatchEvents 1 ++ [.handlerReturn 0 (makeResponse 204), .resume 0, .write (.task 0) 19,
        .resume 0, .recv []])).map (fun s => (s.loop, s.tasks.length)) = some (.done, 1) := by
    decide +kernel
  obtain ⟨s, hx, he⟩ := Run.exists_exec h
  have hl : s.loop = .done := congrArg Prod.fst he
  exact ⟨_, s, hx, hl, congrArg Prod.snd he, tasks_done_of_loop_done hx hl⟩

/-- The input ends while the handler runs: `run` returns, its coroutine does not. -/
theorem loop_done_task_in_handler :
    ∃ es s, Run.Exec H2.step (fun _ _ => True) (start (requestsOn [1])) es s ∧ s.loop = .done ∧
      s.tasks = [⟨0, .handler⟩] := by
  have h : (Run.runChecked H2.step (fun _ _ => True) (start (requestsOn [1]))
      (dispatchEvents 1 ++ [.recv []])).map (fun s => (s.loop, s.tasks)) =
        some (.done, [⟨0, .handler⟩]) := by
    decide +kernel
  obtain ⟨s, hx, he⟩ := Run.exists_exec h
  exact ⟨_, s, hx, congrArg Prod.fst he, congrArg Prod.snd he⟩

end H2

end Nhttp.Server
