import Nhttp.Ws.Step

/-!
# One coroutine on its own

If no other coroutine does anything, the steps of a call of `receive` are what `WsConnection.receive` does.

* `WsState.goesOn`: a connection with one coroutine, which goes on.
* **`receive_steps`**: the steps of a whole call.
-/

namespace Nhttp.Ws

open Octets ExactReads Reading Relation WsState WsConnection

/-- Some steps lead from one state to the other. -/
def WsState.Reaches : WsState → WsState → Prop := ReflTransGen fun s s' => ∃ e, s.step e = some s'

theorem WsState.reaches_of_step {s s' : WsState} (e : Event) (h : s.step e = some s') : s.Reaches s' :=
  .single ⟨e, h⟩

variable {ω : Type} (c : WsConnection ω) (log : List RawFrame)

def WsState.goesOn (next : Next) : WsState :=
  enter { buffer := c.buffer, eof := c.eof, closed := c.closed, wire := c.sent, tasks := [.done none], log } 0 next

theorem WsState.enter_eq_goesOn (pc : Pc) (next : Next) :
    enter { buffer := c.buffer, eof := c.eof, closed := c.closed, wire := c.sent, tasks := [pc], log } 0 next =
      goesOn c log next := by
  cases next <;> rfl

/-- A read goes on with its result, or ends the call. -/
def WsState.afterRead {β : Type} (next : Bool → β → Next) : Option β × WsConnection ω → WsState
  | (none, c) => goesOn { c with closed := true } log (.wait (.done none))
  | (some b, c) => goesOn c log (next c.closed b)

/-- What is left of the header, and the payload, are each taken as a whole. -/
theorem writing_steps (head body : Bytes) (k : Cont) :
    (goesOn c log (.wait (.writing head body k))).Reaches
      (goesOn { c with sent := c.sent ++ (head ++ body), closed := (afterWrite c.closed k).2 } log
        (.wait (afterWrite c.closed k).1)) := by
  have hbody : ∀ c : WsConnection ω, (goesOn c log (.wait (.writing [] body k))).Reaches
      (goesOn { c with sent := c.sent ++ body, closed := (afterWrite c.closed k).2 } log
        (.wait (afterWrite c.closed k).1)) := by
    intro c
    refine reaches_of_step (.write 0 body.length) ?_
    simp [step, goesOn, enter, setTask, wrote]
  by_cases hh : head = []
  · subst hh
    exact hbody c
  by_cases hb : body = []
  · refine reaches_of_step (.write 0 head.length) ?_
    simp [step, goesOn, enter, setTask, wrote, hh, hb]
  · have hhead : (goesOn c log (.wait (.writing head body k))).step (.write 0 head.length) =
        some (goesOn { c with sent := c.sent ++ head } log (.wait (.writing [] body k))) := by
      simp [step, goesOn, enter, setTask, wrote, hh, hb]
    have hrest := hbody { c with sent := c.sent ++ head }
    rw [List.append_assoc] at hrest
    exact (reaches_of_step _ hhead).trans hrest

variable [Source ω UInt8] (r : Reassembly)

theorem fillMore_steps {n : ℕ} (k : Bytes → Prog UInt8 RawFrame) (hn : c.buffer.length < n) :
    (goesOn c log (.wait (.reading r (.need n k)))).Reaches
      (if c.fillMore.1 then goesOn c.fillMore.2 log (.wait (.reading r (.need n k)))
        else goesOn { c.fillMore.2 with closed := true } log (.wait (.done none))) := by
  have hend : ∀ wire : ω, (goesOn c log (.wait (.reading r (.need n k)))).Reaches
      (goesOn { c with wire, eof := true, closed := true } log (.wait (.done none))) :=
    fun wire => reaches_of_step (.read 0 []) (if_pos ⟨hn, Nat.zero_le _, fun _ => rfl⟩)
  by_cases he : c.eof
  · simpa [fillMore, he] using hend c.wire
  rcases hr : Readable.read c.wire 4096 with ⟨_ | ⟨b, got⟩, wire⟩
  · simpa [fillMore, he, hr] using hend wire
  · have hlen := Source.length_read_le c.wire 4096
    rw [hr] at hlen
    have hfill : c.fillMore = (true, { c with wire, buffer := c.buffer ++ b :: got }) := by simp [fillMore, he, hr]
    rw [hfill]
    exact reaches_of_step (.read 0 (b :: got)) (if_pos ⟨hn, hlen, fun h => absurd h he⟩)

theorem readExact_steps (n : ℕ) (k : Bytes → Prog UInt8 RawFrame) :
    (goesOn c log (.wait (.reading r (.need n k)))).Reaches
      (afterRead log (fun closed bs => afterTake closed r (k bs)) (c.readExact n)) := by
  fun_induction readExact c n with
  | case1 c hn c₁ hf =>
    have hfill := fillMore_steps c log r k hn
    rwa [hf] at hfill
  | case2 c hn c₁ hf ih =>
    have hfill := fillMore_steps c log r k hn
    rw [hf] at hfill
    exact hfill.trans ih
  | case3 c hn =>
    exact reaches_of_step (.take 0) ((if_pos (Nat.le_of_not_lt hn)).trans (congrArg some
      (enter_eq_goesOn { c with buffer := c.buffer.drop n } log _ _)))

theorem run_steps (p : Prog UInt8 RawFrame) :
    (goesOn c log (afterTake c.closed r p)).Reaches (afterRead log (afterFrameNext · r) (run p c)) := by
  induction p generalizing c with
  | ret f => exact .refl
  | need n k ih =>
    have hread := readExact_steps c log r n k
    rw [run]
    rcases hr : c.readExact n with ⟨_ | bs, c₁⟩
    · rwa [hr] at hread
    · rw [hr] at hread
      exact hread.trans (ih bs c₁)

theorem receiveLoop_steps :
    ∃ log', (goesOn c log (.wait (loopHead c.closed r))).Reaches
      (goesOn (c.receiveLoop r).2 log' (.wait (.done (c.receiveLoop r).1))) := by
  have hframe : ∀ (c : WsConnection ω) log r {res}, ¬c.closed → c.readFrame = res →
      (goesOn c log (.wait (loopHead c.closed r))).Reaches (afterRead log (afterFrameNext · r) res) := by
    intro c log r res hc hf
    rw [loopHead, if_neg hc, ← hf]
    exact run_steps c log r Ws.readFrame
  fun_induction receiveLoop c r generalizing log with
  | case1 c r hc =>
    rw [loopHead, if_pos hc]
    exact ⟨log, .refl⟩
  | case2 c r hc c' hf => exact ⟨log, hframe c log r hc hf⟩
  | case3 c r hc f c' hf payload ha =>
    have hread := hframe c log r hc hf
    rw [afterRead, afterFrameNext, ha] at hread
    exact ⟨_, hread.trans (writing_steps c' _ _ payload .close)⟩
  | case4 c r hc f c' hf payload ha ih =>
    have hread := hframe c log r hc hf
    rw [afterRead, afterFrameNext, ha] at hread
    obtain ⟨log', hrest⟩ := ih (log ++ [⟨true, opcodePong, payload⟩])
    exact ⟨log', (hread.trans (writing_steps c' _ _ payload (.loop r))).trans hrest⟩
  | case5 c r hc f c' hf code reason ha =>
    have hread := hframe c log r hc hf
    rw [afterRead, afterFrameNext, ha] at hread
    dsimp only at hread
    rw [closeCall] at hread
    rw [WsConnection.close]
    split_ifs at hread ⊢ with hc'
    · exact ⟨log, hread⟩
    · exact ⟨_, hread.trans (writing_steps c' _ _ (closePayload code reason) .close)⟩
  | case6 c r hc f c' hf r' ha ih =>
    have hread := hframe c log r hc hf
    rw [afterRead, afterFrameNext, ha] at hread
    obtain ⟨log', hrest⟩ := ih log
    exact ⟨log', hread.trans hrest⟩
  | case7 c r hc f c' hf msg ha =>
    have hread := hframe c log r hc hf
    rw [afterRead, afterFrameNext, ha] at hread
    exact ⟨log, hread⟩

/-- **A call of `receive`** that is not disturbed makes the steps that lead to its result. -/
theorem receive_steps :
    ∃ log', WsState.Reaches { buffer := c.buffer, eof := c.eof, closed := c.closed, wire := c.sent }
      (goesOn c.receive.2 log' (.wait (.done c.receive.1))) := by
  obtain ⟨log', h⟩ := receiveLoop_steps c [] {}
  exact ⟨log', (reaches_of_step (.call .receive) rfl).trans h⟩

end Nhttp.Ws
