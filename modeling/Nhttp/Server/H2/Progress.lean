import Nhttp.Lib.Run
import Nhttp.Server.H2.Delivery

/-!
# Progress of an HTTP/2 connection

* `loopMove_descends`: every step of the loop takes octets or comes closer to the next frame.
* `exists_progress`: whatever the handlers do, the loop can go on by wire reads, wire writes and its
  own steps.
* **`handlerCalls_delivery`**: the handler is called exactly once for every request of the client.
-/

namespace Nhttp.Server

open Octets Protocol Http2 List LoopPc ClientRequest Event Client.Sends

/-! ## A measure -/

def LoopPc.rank : LoopPc → ℕ
  | .done => 0
  | .header | .preface => 1
  | .sending _ .next | .sending _ .goaway => 2
  | .sending _ (.dataConnection _ _) => 3
  | .sending _ (.dataStream _ _) => 4
  | .payload _ => 5

theorem LoopPc.rank_erase (pc : LoopPc) : pc.erase.rank = pc.rank := by
  cases pc with
  | sending st k => cases k <;> rfl
  | _ => rfl

/-- Steps of others, or reads, before the loop goes on. -/
def H2.turns (s : H2) (rest : Bytes) : ℕ :=
  match s.loop with
  | .sending (.queued _) _ => s.waiters.length + 2
  | .sending (.writing _) _ => 1
  | .sending .written _ => 0
  | _ => rest.length

def feedMeasure (x : H2 × Bytes) : ℕ × ℕ :=
  (x.1.readBuffer.length + x.2.length + x.1.loop.rank, x.1.turns x.2)

section Rank

variable {s s' : H2}

theorem rank_loopSend (s : H2) (f : Frame) (k : LoopCont) :
    (s.loopSend f k).loop.rank = (sending .written k).rank := by
  obtain ⟨lo, wa, st, he⟩ := H2.loopSend_eq s f k
  cases k <;> rfl

theorem rank_frameMove {fh : FrameHeader} {payload : Bytes} (h : H2.FrameMove s fh payload s') :
    s'.loop.rank ≤ 4 := by
  cases h with
  | refuse => exact (rank_loopSend _ _ _).le.trans (by decide)
  | settings => exact (rank_loopSend _ _ _).le.trans (by decide)
  | data => exact (rank_loopSend _ _ _).le
  | dataEmpty => rw [H2.loop_finishData]; decide
  | _ => exact Nat.le_of_ble_eq_true rfl

/-- **Steps of the loop** take octets or come closer to the next frame. -/
theorem loopMove_descends (h : H2.LoopMove s s') (hlen : s.wanted ≤ s.readBuffer.length) :
    s'.readBuffer.length + s'.loop.rank < s.readBuffer.length + s.loop.rank := by
  cases h with
  | preface f hl =>
    rw [readBuffer_loopSend, rank_loopSend, hl]
    simp only [H2.wanted, hl] at hlen
    simp only [H2.takeBuffer, length_drop, rank]
    have : clientPreface.length = 24 := by decide
    omega
  | badPreface hl =>
    rw [hl]
    simp only [H2.takeBuffer, length_drop, rank]
    omega
  | header hl =>
    simp only [H2.wanted, hl] at hlen
    simp only [H2.takeBuffer, length_drop, hl, rank, FrameHeader.wireSize] at hlen ⊢
    omega
  | frame fh hl hm =>
    have hr := rank_frameMove hm
    have hp : (payload fh).rank = 5 := rfl
    rw [readBuffer_frameMove hm, hl, hp]
    simp only [H2.takeBuffer, length_drop]
    omega
  | sent k hl =>
    cases k with
    | next | goaway =>
      rw [hl]
      simp [H2.continueLoop, H2.nextFrame, rank]
    | dataStream fh ref =>
      dsimp only [H2.continueLoop]
      rw [readBuffer_loopSend, rank_loopSend, hl]
      simp [rank]
    | dataConnection fh ref =>
      dsimp only [H2.continueLoop]
      rw [readBuffer_finishData, H2.loop_finishData, hl]
      simp [rank]

end Rank

/-! ## Steps that go on -/

def Event.onWire : Event → Bool
  | .recv _ | .loop | .write _ _ => true
  | _ => false

/-- The pair goes down. -/
abbrev Descends (m m' : ℕ × ℕ) : Prop := Prod.Lex (· < ·) (· < ·) m m'

theorem descends_of_eq {m m' : ℕ × ℕ} (h1 : m.1 = m'.1) (h2 : m.2 < m'.2) : Descends m m' :=
  Prod.lex_def.mpr (.inr ⟨h1, h2⟩)

section Progress

variable {s : H2} {rest : Bytes}

theorem progress_recv (hlt : s.readBuffer.length < s.wanted) :
    ∃ e y, onWire e = true ∧ feed (s, rest) e = some y ∧
      Descends (feedMeasure y) (feedMeasure (s, rest)) := by
  have hstep : ∀ bs : Bytes, bs.length ≤ 4096 → s.step (.recv bs) =
      some (if bs = [] then { s with loop := .done } else { s with readBuffer := s.readBuffer ++ bs }) :=
    fun bs hb => by rw [H2.step, if_neg (by omega)]
  have hread : (∀ r, s.turns r = r.length) ∧ 0 < s.loop.rank := by
    unfold H2.wanted at hlt
    unfold H2.turns
    cases hl : s.loop <;> simp [hl, rank] at hlt ⊢
  by_cases hr : rest = []
  · subst hr
    refine ⟨.recv [], ({ s with loop := .done }, []), rfl, by simp [feed, hstep], Prod.Lex.left _ _ ?_⟩
    exact Nat.add_lt_add_left hread.2 _
  · have hne : rest.take 4096 ≠ [] := by simp [hr]
    have hpos : 0 < (rest.take 4096).length := length_pos_iff.mpr hne
    have hle : (rest.take 4096).length ≤ rest.length := length_take_le' _ _
    refine ⟨.recv (rest.take 4096), ({ s with readBuffer := s.readBuffer ++ rest.take 4096 },
      rest.drop (rest.take 4096).length), rfl, ?_, descends_of_eq ?_ ?_⟩
    · have hpre : rest.take 4096 <+: rest := take_prefix _ _
      simp only [feed]
      rw [if_pos ⟨hpre, fun h => absurd h hne⟩, hstep _ (length_take_le _ _), if_neg hne]
      rfl
    · simp only [feedMeasure, length_append, length_drop]
      omega
    · refine lt_of_eq_of_lt (hread.1 _) (lt_of_lt_of_eq ?_ (hread.1 rest).symm)
      rw [length_drop]
      omega

theorem progress_loop {s' : H2} (hlen : s.wanted ≤ s.readBuffer.length) (hs : s.loopStep = some s') :
    ∃ e y, onWire e = true ∧ feed (s, rest) e = some y ∧
      Descends (feedMeasure y) (feedMeasure (s, rest)) := by
  refine ⟨.loop, (s', rest), rfl, ?_, Prod.Lex.left _ _ ?_⟩
  · simp [feed, fails, H2.step, hs]
  · have := loopMove_descends (H2.loopMove_of_loopStep hs) hlen
    dsimp only
    omega

theorem progress_write {s' : H2} {who : Sender} {k : ℕ} (hs : s.writeStep who k = some s')
    (ht : s'.turns rest < s.turns rest) :
    ∃ e y, onWire e = true ∧ feed (s, rest) e = some y ∧
      Descends (feedMeasure y) (feedMeasure (s, rest)) := by
  have hb := H2.bare_writeStep hs
  have hbuf : s'.readBuffer = s.readBuffer := (congrArg H2.readBuffer hb :)
  have hrank : s'.loop.rank = s.loop.rank := by
    rw [← rank_erase, ← rank_erase s.loop]
    exact congrArg rank (congrArg H2.loop hb :)
  refine ⟨.write who k, (s', rest), rfl, ?_, descends_of_eq ?_ ht⟩
  · simp [feed, fails, H2.step, hs]
  · simp only [feedMeasure, hbuf, hrank]

variable {k : LoopCont}

theorem loop_grant_of_written (h : s.loop = .sending .written k) (who : Sender) :
    (s.grant who).loop = .sending .written k := by
  cases who with
  | loop => simp [H2.grant, h]
  | task t => exact h

theorem loop_unlock_of_written (h : s.loop = .sending .written k) :
    s.unlock.loop = .sending .written k := by
  unfold H2.unlock
  cases s.waiters with
  | nil => exact h
  | cons w ws => exact loop_grant_of_written (s := { s with waiters := ws }) h w

theorem progress_writing {left : Bytes} (hl : s.loop = .sending (.writing left) k) :
    ∃ e y, onWire e = true ∧ feed (s, rest) e = some y ∧
      Descends (feedMeasure y) (feedMeasure (s, rest)) := by
  have hs : s.sendingOf .loop = some (.writing left) := by simp [H2.sendingOf, hl]
  refine progress_write (H2.writeStep_all hs) ?_
  have hw : (({ s with wire := s.wire ++ left } : H2).setSending .written .loop).loop =
      .sending .written k := by simp [H2.setSending, hl]
  unfold H2.turns
  rw [loop_unlock_of_written hw, hl]
  exact Nat.zero_lt_one

/-- The loop waits for the lock: whoever holds it writes, and the queue moves up. -/
theorem progress_queued (hlock : s.LockOk) {out : Bytes} (hl : s.loop = .sending (.queued out) k) :
    ∃ e y, onWire e = true ∧ feed (s, rest) e = some y ∧
      Descends (feedMeasure y) (feedMeasure (s, rest)) := by
  have hwait : s.phase .loop = some .waiting := by simp [H2.phase, phase, hl, Sending.phase]
  have hmem := (hlock.waiting .loop).mp hwait
  have hlocked : s.locked = true := by
    by_contra hf
    rw [hlock.free (by simpa using hf)] at hmem
    cases hmem
  obtain ⟨who, hwho⟩ := hlock.holding.mp hlocked
  obtain ⟨left, hleft⟩ := H2.sendingOf_of_phase hwho
  cases who with
  | loop => simp [hwait] at hwho
  | task t =>
    refine progress_write (H2.writeStep_all hleft) ?_
    obtain ⟨w, ws, hq⟩ := exists_cons_of_ne_nil (ne_nil_of_mem hmem)
    have hu : (({ s with wire := s.wire ++ left } : H2).setSending .written (.task t)).unlock =
        H2.grant { ({ s with wire := s.wire ++ left } : H2).setSending .written (.task t) with
          waiters := ws } w := by
      unfold H2.unlock
      rw [show (({ s with wire := s.wire ++ left } : H2).setSending .written (.task t)).waiters =
        w :: ws from hq]
    have hturns : s.turns rest = ws.length + 1 + 2 := by simp [H2.turns, hl, hq]
    rw [hu, hturns]
    cases w with
    | loop => simp [H2.grant, H2.setSending, hl, H2.turns]
    | task t' => simp [H2.grant, H2.setSending, hl, H2.turns]

/-- **The loop can always go on.** -/
theorem exists_progress (hlock : s.LockOk) (hdone : s.loop ≠ .done) :
    ∃ e y, onWire e = true ∧ feed (s, rest) e = some y ∧
      Descends (feedMeasure y) (feedMeasure (s, rest)) := by
  by_cases hlt : s.readBuffer.length < s.wanted
  · exact progress_recv hlt
  · have hlen := Nat.le_of_not_lt hlt
    cases hl : s.loop with
    | sending st k =>
      cases st with
      | queued out => exact progress_queued hlock hl
      | writing left => exact progress_writing hl
      | written => exact progress_loop hlen (by rw [H2.loopStep, if_neg hlt, hl])
    | done => exact absurd hl hdone
    | _ => exact progress_loop hlen (by rw [H2.loopStep, if_neg hlt, hl])

end Progress

/-! ## Delivery -/

section Delivery

variable {order : List ClientRequest}

/-- What holds in every state reached. -/
structure Delivers (order : List ClientRequest) (x : H2 × Bytes) : Prop where
  wf : x.1.Wf
  lock : x.1.LockOk
  tracks : Tracks order x.1 (x.1.readBuffer ++ x.2)

variable {x : H2 × Bytes}

theorem Delivers.feed {y : H2 × Bytes} {e : Event} (h : Delivers order x)
    (hf : Server.feed x e = some y) : Delivers order y := by
  obtain ⟨hfail, hs, -⟩ := feed_eq_some hf
  exact ⟨h.wf.step hs, h.lock.step (writeFails_of_fails hfail) hs, h.tracks.feed h.wf hf⟩

theorem delivers_start {reqs : List ClientRequest} {fs : List Frame} {b rest : Bytes}
    (hd : (reqs.map ClientRequest.id).Nodup) (hf : Client.Completes { todo := reqs } fs order)
    (hb : b ++ rest = clientPreface ++ framesBytes fs) : Delivers order (H2.start b, rest) := by
  refine ⟨H2.wf_start b, H2.lockOk_start b, { todo := reqs }, ?_, ?_, fs, hf, hb⟩
  · exact ⟨rfl, rfl, rfl, by simp [H2.start], fun _ => rfl, fun _ h => (by cases h), by simp⟩
  · simpa [Client.Distinct, Client.requests] using hd

theorem Expects.done_initial {c : Client} {s : H2} {input : Bytes} {pc : LoopPc}
    (h : Expects order c s input pc) : c.done <+: order := by
  have hc : ∀ {fh ref fs l₁ l₂ r left}, Closing order c s fh ref fs l₁ l₂ r left →
      c.done <+: order := by
    intro fh ref fs l₁ l₂ r left h
    by_cases hf : FrameFlags.has fh.flags FrameFlags.endStream = true
    · exact (prefix_append _ _).trans (h.ending hf).2.done_initial
    · exact (h.going (Bool.eq_false_iff.mpr hf)).done_initial
  cases pc with
  | preface | header =>
    obtain ⟨fs, hf, -⟩ := h
    exact hf.done_initial
  | payload fh =>
    obtain ⟨f, fs, hf, -⟩ := h
    exact hf.done_initial
  | sending st k =>
    cases k with
    | next =>
      obtain ⟨fs, hf, -⟩ := h
      exact hf.done_initial
    | dataStream fh ref | dataConnection fh ref =>
      obtain ⟨fs, l₁, l₂, r, left, hcl, -⟩ := h
      exact hc hcl
    | goaway => exact h.elim
  | done => exact h.1 ▸ prefix_rfl

theorem Delivers.calls_prefix (h : Delivers order x) :
    x.1.handlerCalls <+: order.map call := by
  obtain ⟨c, hs, -, he⟩ := h.tracks
  rw [hs.calls]
  exact he.done_initial.map _

theorem Delivers.calls_of_done (h : Delivers order x) (hl : x.1.loop = .done) :
    x.1.handlerCalls = order.map call := by
  obtain ⟨c, hs, -, he⟩ := h.tracks
  rw [hl] at he
  rw [hs.calls, he.1]

/-- **The calls of a run** are those of the complete requests, all of them when `run` returns, which it can. -/
theorem Delivers.calls (h : Delivers order x) :
    x.1.handlerCalls <+: order.map call ∧
      (x.1.loop = .done → x.1.handlerCalls = order.map call) ∧
        ∃ es' y, Run.Exec Server.feed (fun _ e => e.onWire = true) x es' y ∧
          y.1.loop = .done ∧ y.1.handlerCalls = order.map call := by
  have hwf : WellFounded Descends := (Prod.lex Nat.lt_wfRel Nat.lt_wfRel).wf
  refine ⟨h.calls_prefix, h.calls_of_done, ?_⟩
  obtain ⟨es', y, hy, hl⟩ := Run.Exec.of_progress hwf feedMeasure
    (I := Delivers order) (G := fun x => x.1.loop = .done) (C := fun _ e => onWire e = true)
    (fun _ _ _ _ hs h => h.feed hs)
    (fun x hx hl => exists_progress hx.lock hl) x h
  have hy' : Delivers order y := hy.inv (fun _ _ _ _ hs h => h.feed hs) h
  exact ⟨es', y, hy, hl, hy'.calls_of_done hl⟩

/-- **Every request reaches the handler once.** A client sends requests on distinct streams, with any frames that
`Client.Finishes` allows, in any segmentation, and nothing throws. Whatever the interleaving, the handler has been
called for the first requests of the order of completion, for all of them when `run` returns, and `run` can always
get there. -/
theorem handlerCalls_delivery {reqs : List ClientRequest} {fs : List Frame} {b rest rest' : Bytes}
    {es : List Event} {s : H2} (hd : (reqs.map ClientRequest.id).Nodup)
    (hf : Client.Finishes { todo := reqs } fs order)
    (hb : b ++ rest = clientPreface ++ framesBytes fs)
    (hx : Run.Exec feed (fun _ _ => True) (H2.start b, rest) es (s, rest')) :
    order.Perm reqs ∧ s.handlerCalls <+: order.map ClientRequest.call ∧
      (s.loop = .done → s.handlerCalls = order.map ClientRequest.call) ∧
        ∃ es' y, Run.Exec feed (fun _ e => e.onWire = true) (s, rest') es' y ∧
          y.1.loop = .done ∧ y.1.handlerCalls = order.map ClientRequest.call := by
  have h : Delivers order (s, rest') :=
    hx.inv (fun _ _ _ _ hs h => h.feed hs) (delivers_start hd hf.completes hb)
  refine ⟨?_, h.calls⟩
  have hp := hf.perm
  simpa [Client.requests] using hp

def postRequest : ClientRequest where
  id := 1
  fields := [⟨ascii ":method", ascii "POST"⟩, ⟨ascii ":path", ascii "/a?b=c"⟩, ⟨ascii "x", ascii "y"⟩]
  body := [1, 2, 3]
  id_ne_zero := by decide
  id_lt := by decide
  fields_lt := by decide
  body_le := by decide

def getRequest : ClientRequest where
  id := 3
  fields := [⟨ascii ":path", ascii "/"⟩]
  body := []
  id_ne_zero := by decide
  id_lt := by decide
  fields_lt := by decide
  body_le := by decide

/-- The two requests interleaved, the first header block split, padded and with priority fields. -/
def interleavedFrames : List Frame :=
  [⟨.headers, 0x28, 1, padPayload 0x28 (withPriority 0x28 [0, 0, 0, 0, 9]
      ((encode postRequest.fields).take 3)) [0, 0]⟩,
    ⟨.continuation, 0x4, 1, (encode postRequest.fields).drop 3⟩,
    ⟨.ping, 0, 0, [1, 2, 3, 4, 5, 6, 7, 8]⟩,
    ⟨.data, 0x8, 1, padPayload 0x8 [1] [0]⟩,
    ⟨.headers, 0x5, 3, padPayload 0x5 (withPriority 0x5 [0, 0, 0, 0, 0] (encode getRequest.fields)) []⟩,
    ⟨.data, 0x1, 1, padPayload 0x1 [2, 3] []⟩]

theorem finishes_interleavedFrames :
    Client.Finishes { todo := [postRequest, getRequest] } interleavedFrames
      [getRequest, postRequest] := by
  have hlen : ∀ f ∈ interleavedFrames, f.payload.length < 2 ^ 24 := by decide +kernel
  refine .cons (@headers _ [] _ postRequest _ _ ((encode postRequest.fields).drop 3) _ _
    rfl rfl (take_append_drop _ _).symm rfl (by decide) (by decide) (by decide))
    (hlen _ (by simp [interleavedFrames])) ?_
  refine .cons (@continuation _ ⟨postRequest, (encode postRequest.fields).drop 3, false⟩
    _ _ [] rfl (append_nil _).symm (fun _ => rfl)) (hlen _ (by simp [interleavedFrames])) ?_
  refine .cons (.other rfl ⟨by decide, rfl, rfl⟩) (hlen _ (by simp [interleavedFrames])) ?_
  refine .cons (@data _ [] [] postRequest _ _ [2, 3] _ rfl rfl (by decide) (by decide))
    (hlen _ (by simp [interleavedFrames])) ?_
  refine .cons (@headers _ [] _ getRequest _ _ [] _ _ rfl rfl (append_nil _).symm
    rfl (by decide) (fun _ => rfl) (fun _ => rfl)) (hlen _ (by simp [interleavedFrames])) ?_
  refine .cons (@dataEnd _ [] [] postRequest _ _ _ rfl rfl (by decide) (by decide))
    (hlen _ (by simp [interleavedFrames])) ?_
  exact .nil rfl rfl rfl

/-- From the start, when the listener has read the preface. -/
theorem handlerCalls_delivery_interleaved :
    ∃ es' y, Run.Exec feed (fun _ e => Event.onWire e = true)
      (H2.start clientPreface, framesBytes interleavedFrames) es' y ∧ y.1.loop = .done ∧
        y.1.handlerCalls = [getRequest, postRequest].map ClientRequest.call :=
  (handlerCalls_delivery (by decide) finishes_interleavedFrames rfl (.nil _)).2.2.2

end Delivery

end Nhttp.Server
