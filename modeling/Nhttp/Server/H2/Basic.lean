import Nhttp.Lib.Lists
import Nhttp.Server.H2.Step

/-!
# What the operations of an HTTP/2 connection change

* `loopSend_eq`, `taskSend_eq`: a `send_frame` call up to the writer lock.
* `H2.bare`: the state without the lock and without how far each `send_frame` has got.
* `H2.ids`: stream objects keep their ids.
* `dispatchStream_eq`: a dispatch starts one coroutine and calls the handler at most once.
-/

namespace Nhttp.Server

open Octets Protocol Http2 Lists FrameFlags

/-! ## Sending -/

namespace H2

theorem loopSend_eq (s : H2) (f : Frame) (k : LoopCont) :
    ∃ lo wa st, s.loopSend f k =
      { s with locked := lo, waiters := wa, loop := .sending st k, log := .sent none f :: s.log } := by
  unfold loopSend acquire record
  split_ifs
  · exact ⟨_, _, _, rfl⟩
  · exact ⟨_, _, _, rfl⟩

theorem taskSend_eq (s : H2) (t ref : ℕ) (f : Frame) (k : TaskCont) :
    ∃ lo wa st, s.taskSend t ref f k =
      { s with
        locked := lo
        waiters := wa
        tasks := s.tasks.modify t fun x => { x with pc := .sending st k }
        log := .sent (some ref) f :: s.log } := by
  unfold taskSend acquire record setTask
  split_ifs
  · exact ⟨_, _, _, rfl⟩
  · exact ⟨_, _, _, rfl⟩

end H2

/-! ## The lock -/

/-- Forget how far a `send_frame` has got. -/
def LoopPc.erase : LoopPc → LoopPc
  | .sending _ k => .sending .written k
  | pc => pc

def TaskPc.erase : TaskPc → TaskPc
  | .sending _ k => .sending .written k
  | pc => pc

theorem TaskPc.eq_done_of_erase {pc : TaskPc} (h : pc.erase = .done) : pc = .done := by
  cases pc with
  | done => rfl
  | _ => cases h

def Task.erase (x : Task) : Task := { x with pc := x.pc.erase }

namespace H2

def bare (s : H2) : H2 :=
  { s with
    locked := false
    waiters := []
    loop := s.loop.erase
    tasks := s.tasks.map Task.erase
    wire := [] }

variable (s : H2) {f : H2Stream → H2Stream}

theorem bare_grant (who : Sender) : (s.grant who).bare = s.bare := by
  cases who with
  | loop =>
    unfold grant
    cases hl : s.loop with
    | sending st k => cases st <;> simp [bare, LoopPc.erase, hl]
    | _ => simp [bare]
  | task t =>
    unfold grant bare
    rw [map_modify_of_keeps]
    intro x
    obtain ⟨ref, pc⟩ := x
    cases pc with
    | sending st k => cases st <;> rfl
    | _ => rfl

theorem bare_unlock : s.unlock.bare = s.bare := by
  unfold unlock
  split
  · rfl
  · exact bare_grant _ _

theorem bare_setSending (st : Sending) (who : Sender) : (s.setSending st who).bare = s.bare := by
  cases who with
  | loop =>
    unfold setSending
    cases hl : s.loop <;> simp [bare, LoopPc.erase, hl]
  | task t =>
    unfold setSending bare
    rw [map_modify_of_keeps]
    intro x
    obtain ⟨ref, pc⟩ := x
    cases pc <;> rfl

/-- **Wire writes** change nothing but the lock, the wire and how far a `send_frame` has got. -/
theorem bare_writeStep {s s' : H2} {who : Sender} {k : ℕ} (h : s.writeStep who k = some s') :
    s'.bare = s.bare := by
  unfold writeStep at h
  split at h
  · split_ifs at h with hk hd
    · cases h
      rw [bare_unlock, bare_setSending]
      rfl
    · cases h
      rw [bare_setSending]
      rfl
  · cases h

/-! ## Stream objects -/

def ids (s : H2) : List ℕ := s.objects.map H2Stream.id

theorem length_ids : s.ids.length = s.objects.length := List.length_map _

theorem object_modifyObject (ref r : ℕ) (f : H2Stream → H2Stream) :
    (s.modifyObject ref f).object r =
      if ref = r ∧ r < s.objects.length then f (s.object r) else s.object r := by
  unfold object modifyObject
  rw [List.getD_eq_getElem?_getD, List.getD_eq_getElem?_getD, List.getElem?_modify]
  by_cases hr : r < s.objects.length
  · rw [List.getElem?_eq_getElem hr]
    by_cases h : ref = r
    · simp [h, hr]
    · simp [h]
  · rw [List.getElem?_eq_none (Nat.le_of_not_lt hr)]
    simp [hr]

theorem object_modifyObject_of_keeps {α : Type} {g : H2Stream → α}
    (h : ∀ o, g (f o) = g o) (s : H2) (ref r : ℕ) :
    g ((s.modifyObject ref f).object r) = g (s.object r) := by
  rw [object_modifyObject]
  split_ifs
  · exact h _
  · rfl

theorem ids_modifyObject (h : ∀ o, (f o).id = o.id) (s : H2) (ref : ℕ) :
    (s.modifyObject ref f).ids = s.ids := by
  exact map_modify_of_keeps h s.objects ref

theorem ids_getElem? {s : H2} {ref : ℕ} (h : ref < s.objects.length) :
    s.ids[ref]? = some (s.object ref).id := by
  unfold ids object
  rw [List.getElem?_map, List.getD_eq_getElem?_getD, List.getElem?_eq_getElem h]
  rfl

theorem object_id_of_ids {s : H2} {ref id : ℕ} (h : s.ids[ref]? = some id) :
    (s.object ref).id = id := by
  have hlt : ref < s.objects.length := by
    rw [← length_ids]
    exact (List.getElem?_eq_some_iff.mp h).1
  rw [ids_getElem? hlt] at h
  exact Option.some.inj h

theorem modifyObject_modifyObject (ref : ℕ) (f g : H2Stream → H2Stream) :
    (s.modifyObject ref f).modifyObject ref g = s.modifyObject ref (g ∘ f) := by
  simp [modifyObject, List.modify_modify_eq]

end H2

/-! ## Header blocks and dispatch -/

structure H2Stream.Keeps (f : H2Stream → H2Stream) : Prop where
  id : ∀ o, (f o).id = o.id
  sendWindow : ∀ o, (f o).sendWindow = o.sendWindow

def H2Stream.kept (o : H2Stream) : ℕ × ℤ × Option ℕ × Bytes × Bytes :=
  (o.id, o.sendWindow, o.windowWaiter, o.headerBlock, o.bodyBuffer)

theorem H2Stream.Keeps.of_kept (h : ∀ o, (f o).kept = o.kept) : Keeps f :=
  ⟨fun o => congrArg Prod.fst (h o), fun o => congrArg (fun p => p.2.1) (h o)⟩

theorem H2Stream.kept_foldl_applyField (fs : HeaderList) (o : H2Stream) :
    (fs.foldl applyField o).kept = o.kept := by
  induction fs generalizing o with
  | nil => rfl
  | cons f fs ih =>
    refine (ih _).trans ?_
    unfold applyField
    split_ifs <;> rfl

/-- The coroutine has not sent its response. -/
def TaskPc.unanswered : TaskPc → Bool
  | .handler | .answer _ => true
  | _ => false

namespace H2

theorem finishHeaderBlock_eq (s : H2) (ref : ℕ) :
    ∃ dec f, (∀ o, (f o).kept = o.kept) ∧
      s.finishHeaderBlock ref = { s.modifyObject ref f with hpackDecoder := dec } := by
  unfold finishHeaderBlock
  dsimp only
  cases (s.hpackDecoder.decode (s.object ref).headerBlock []).failed with
  | some _ => exact ⟨_, fun o => { o with malformed := true }, fun _ => rfl, rfl⟩
  | none =>
    refine ⟨_, _, ?_, rfl⟩
    exact H2Stream.kept_foldl_applyField (s.hpackDecoder.decode (s.object ref).headerBlock []).out

theorem completeHeaders_eq (s : H2) (ref : ℕ) :
    ∃ dec f, (∀ o, (f o).kept = o.kept) ∧
      (s.completeHeaders ref = { s.modifyObject ref f with hpackDecoder := dec } ∨
        s.completeHeaders ref =
          ({ s.modifyObject ref f with hpackDecoder := dec } : H2).dispatchStream ref) := by
  obtain ⟨dec, f, hf, h⟩ := finishHeaderBlock_eq s ref
  refine ⟨dec, (fun o : H2Stream => { o with endHeaders := true }) ∘ f, hf, ?_⟩
  unfold completeHeaders
  dsimp only
  have h' : (s.finishHeaderBlock ref).modifyObject ref (fun o => { o with endHeaders := true }) =
      { s.modifyObject ref ((fun o : H2Stream => { o with endHeaders := true }) ∘ f) with
        hpackDecoder := dec } := by
    rw [h, ← modifyObject_modifyObject]
    rfl
  rw [h']
  split_ifs
  · exact .inr rfl
  · exact .inl rfl

/-- **A dispatch** starts one coroutine and calls the handler at most once. -/
theorem dispatchStream_eq (s : H2) (ref : ℕ) :
    ∃ f pc called, H2Stream.Keeps f ∧ (∀ o, (f o).endHeaders = o.endHeaders) ∧
      TaskPc.unanswered pc = true ∧
      (called = [] ∨ ∃ req body, called = [Action.called (s.object ref).id req body]) ∧
      s.dispatchStream ref =
        { s.modifyObject ref f with
          tasks := s.tasks ++ [⟨ref, pc⟩]
          log := called ++ .dispatched ref (s.object ref).id :: s.log } := by
  unfold dispatchStream record
  dsimp only
  split_ifs with hm hh
  · refine ⟨id, .answer (makeResponse 400), [], ⟨fun _ => rfl, fun _ => rfl⟩, fun _ => rfl, rfl,
      .inl rfl, ?_⟩
    simp [modifyObject, List.modify_id]
  · exact ⟨fun o => { o with headers := [] }, .handler, _, ⟨fun _ => rfl, fun _ => rfl⟩,
      fun _ => rfl, rfl, .inr ⟨_, _, rfl⟩, rfl⟩
  · exact ⟨fun o => { o with headers := [] }, .answer (makeResponse 501), [],
      ⟨fun _ => rfl, fun _ => rfl⟩, fun _ => rfl, rfl, .inl rfl, rfl⟩

theorem nextFrame_dispatchStream (s : H2) (ref : ℕ) :
    (s.dispatchStream ref).nextFrame = s.nextFrame.dispatchStream ref := by
  have ho : s.nextFrame.object ref = s.object ref := rfl
  unfold dispatchStream
  rw [ho]
  dsimp only [record, nextFrame, modifyObject]
  split_ifs <;> rfl

/-- A wake-up changes where a coroutine is suspended, and only after its response. -/
theorem wake_eq (s : H2) (ref : ℕ) :
    ∃ f t g, H2Stream.Keeps f ∧ (∀ o, (f o).endHeaders = o.endHeaders) ∧
      (∀ x : Task, (g x).ref = x.ref ∧ (g x).pc.unanswered = x.pc.unanswered) ∧
      s.wake ref = { s.modifyObject ref f with tasks := s.tasks.modify t g } := by
  unfold wake
  cases hw : (s.object ref).windowWaiter with
  | none =>
    refine ⟨id, 0, id, ⟨fun _ => rfl, fun _ => rfl⟩, fun _ => rfl, fun _ => ⟨rfl, rfl⟩, ?_⟩
    simp [modifyObject, List.modify_id]
  | some t =>
    refine ⟨fun o => { o with windowWaiter := none }, t, _, ⟨fun _ => rfl, fun _ => rfl⟩,
      fun _ => rfl, fun x => ?_, rfl⟩
    obtain ⟨r, pc⟩ := x
    cases pc <;> exact ⟨rfl, rfl⟩

theorem foldl_wake_inv {I : H2 → Prop} (hI : ∀ s ref, I s → I (s.wake ref)) (l : List ℕ) :
    ∀ {s : H2}, I s → I (l.foldl wake s) := by
  induction l with
  | nil => exact id
  | cons e l ih => exact fun h => ih (hI _ _ h)

/-! ## Accepted frames -/

section Accepted

variable {s s' : H2} {fh : FrameHeader} {payload : Bytes}

theorem handleHeaders_eq_some (h : s.handleHeaders fh payload = some s') :
    fh.streamId ≠ 0 ∧ s.expectingContinuation = false ∧
      ∃ block, headersFragment fh payload = some block ∧
        s' = if has fh.flags endHeaders then
            (s.openStream fh.streamId block
              (has fh.flags endStream)).completeHeaders s.objects.length
          else { s.openStream fh.streamId block (has fh.flags endStream) with
            expectingContinuation := true, lastHeaderStreamId := fh.streamId } := by
  unfold handleHeaders at h
  by_cases h0 : fh.streamId = 0 ∨ s.expectingContinuation
  · rw [if_pos h0] at h
    cases h
  · rw [if_neg h0] at h
    refine ⟨fun h => h0 (.inl h), Bool.eq_false_iff.mpr fun h => h0 (.inr h), ?_⟩
    cases hf : headersFragment fh payload with
    | none =>
      rw [hf] at h
      cases h
    | some block =>
      rw [hf] at h
      refine ⟨block, rfl, ?_⟩
      split_ifs at h ⊢ <;> exact (Option.some.inj h).symm

theorem handleContinuation_eq_some (h : s.handleContinuation fh payload = some s') :
    s.expectingContinuation = true ∧ fh.streamId = s.lastHeaderStreamId ∧
      ∃ ref, s.streams.lookup fh.streamId = some ref ∧
        let s₁ := s.modifyObject ref fun o => { o with headerBlock := o.headerBlock ++ payload }
        s' = if has fh.flags endHeaders then
            ({ s₁ with expectingContinuation := false } : H2).completeHeaders ref
          else s₁ := by
  unfold handleContinuation at h
  by_cases h0 : ¬s.expectingContinuation ∨ fh.streamId ≠ s.lastHeaderStreamId
  · rw [if_pos h0] at h
    cases h
  · rw [if_neg h0] at h
    obtain ⟨h1, h2⟩ := not_or.mp h0
    refine ⟨not_not.mp h1, not_not.mp h2, ?_⟩
    cases hl : s.streams.lookup fh.streamId with
    | none =>
      rw [hl] at h
      cases h
    | some ref =>
      rw [hl] at h
      refine ⟨ref, rfl, ?_⟩
      split_ifs at h ⊢ <;> exact (Option.some.inj h).symm

theorem handleData_eq_some {r : Option ℕ} (h : s.handleData fh payload = some (s', r)) :
    (r = none ∧ s.streams.lookup fh.streamId = none ∧ s' = s) ∨
      ∃ ref content, r = some ref ∧ s.streams.lookup fh.streamId = some ref ∧
        (s.object ref).bodyBuffer.length + content.length ≤ s.maxRequestBodySize ∧
        s' = s.modifyObject ref fun o => { o with bodyBuffer := o.bodyBuffer ++ content } := by
  unfold handleData at h
  cases hl : s.streams.lookup fh.streamId with
  | none =>
    rw [hl] at h
    cases h
    exact .inl ⟨rfl, rfl, rfl⟩
  | some ref =>
    rw [hl] at h
    cases hp : stripPadding payload (has fh.flags padded) with
    | none =>
      rw [hp] at h
      cases h
    | some content =>
      rw [hp] at h
      dsimp only at h
      split_ifs at h with hsize
      cases h
      exact .inr ⟨ref, content, rfl, rfl, Nat.le_of_not_lt hsize, rfl⟩

theorem lookup_of_handleData_some {ref : ℕ} (h : s.handleData fh payload = some (s', some ref)) :
    s.streams.lookup fh.streamId = some ref := by
  obtain ⟨h', -⟩ | ⟨r, content, h', hl, -⟩ := handleData_eq_some h
  · cases h'
  · cases h'
    exact hl

theorem creditWindows_eq_some {c : H2 × List ℕ} (h : s.creditWindows fh payload = some c) :
    c = (s, []) ∨
      (∃ inc : ℕ, c.1 = ({ s with connectionSendWindow := s.connectionSendWindow + inc } : H2).record
          (.credit none inc) ∧
        c.2 = (c.1.streams.filter fun e => decide (0 < (c.1.object e.2).sendWindow)).map Prod.snd) ∨
      ∃ ref inc : ℕ, s.streams.lookup fh.streamId = some ref ∧
        c = ((s.modifyObject ref fun o => { o with sendWindow := o.sendWindow + inc }).record
          (.credit (some ref) inc), [ref]) := by
  unfold creditWindows at h
  cases hp : parseWindowUpdatePayload payload with
  | none =>
    rw [hp] at h
    cases h
  | some inc =>
    rw [hp] at h
    dsimp only at h
    split_ifs at h with h0 h1
    · cases h
      exact .inr (.inl ⟨inc, rfl, rfl⟩)
    · cases hl : s.streams.lookup fh.streamId with
      | none =>
        rw [hl] at h
        exact .inl (Option.some.inj h).symm
      | some ref =>
        rw [hl] at h
        exact .inr (.inr ⟨ref, inc, rfl, (Option.some.inj h).symm⟩)

theorem handleWindowUpdate_eq_some (h : s.handleWindowUpdate fh payload = some s') :
    s' = s ∨
      (∃ (inc : ℕ) (l : List ℕ), s' = l.foldl wake
        (({ s with connectionSendWindow := s.connectionSendWindow + inc } : H2).record
          (.credit none inc))) ∨
      ∃ ref inc : ℕ, s.streams.lookup fh.streamId = some ref ∧
        s' = ((s.modifyObject ref fun o => { o with sendWindow := o.sendWindow + inc }).record
          (.credit (some ref) inc)).wake ref := by
  obtain ⟨c, hc, rfl⟩ := Option.map_eq_some_iff.mp h
  obtain rfl | ⟨inc, hc1, -⟩ | ⟨ref, inc, hl, rfl⟩ := creditWindows_eq_some hc
  · exact .inl rfl
  · exact .inr (.inl ⟨inc, c.2, by rw [hc1]⟩)
  · exact .inr (.inr ⟨ref, inc, hl, rfl⟩)

end Accepted

theorem finishData_eq (s : H2) (fh : FrameHeader) (ref : ℕ) :
    s.finishData fh ref = s.nextFrame ∨
      has fh.flags endStream = true ∧
        let s₁ := s.modifyObject ref fun o => { o with endStream := true }
        s.finishData fh ref = s₁.nextFrame ∨
          (s₁.object ref).endHeaders = true ∧ s.finishData fh ref = (s₁.dispatchStream ref).nextFrame := by
  unfold finishData
  dsimp only
  split_ifs with h1 h2
  · exact .inr ⟨h1, .inr ⟨h2, rfl⟩⟩
  · exact .inr ⟨h1, .inl rfl⟩
  · exact .inl rfl

end H2

end Nhttp.Server
