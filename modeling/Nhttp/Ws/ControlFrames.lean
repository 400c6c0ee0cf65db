import Nhttp.Ws.Step

/-!
# Control frames written by a WebSocket connection

* `RawFrame.Valid`: what RFC 6455 §5.5 asks of a control frame.
* `Fits`: the client's frame or the reason given to `close` leaves room for a valid reply.
* **`frames_valid_iff`**: in a run all of whose steps are such, every frame written is valid; and a step that is not
  such writes one that is not.
-/

namespace Nhttp.Ws

open Octets ExactReads Run

/-- A control frame is final and has at most 125 octets, and a Close frame has none or at least two of them. -/
def RawFrame.Valid (f : RawFrame) : Prop :=
  8 ≤ f.opcode → f.fin = true ∧ f.payload.length ≤ 125 ∧ (f.opcode = opcodeClose → f.payload.length ≠ 1)

instance (f : RawFrame) : Decidable f.Valid := by
  unfold RawFrame.Valid
  infer_instance

def RawFrame.Echoes (f : RawFrame) : Prop :=
  (f.opcode = opcodeClose → f.payload.length ≤ 125 ∧ f.payload.length ≠ 1) ∧
    (f.opcode = opcodePing → f.payload.length ≤ 125)

instance (f : RawFrame) : Decidable f.Echoes := by
  unfold RawFrame.Echoes
  infer_instance

namespace WsState

def received (s : WsState) (t : ℕ) : Option RawFrame :=
  match s.tasks[t]? with
  | some (.reading _ (.need n k)) =>
    match k (s.buffer.take n) with
    | .ret f => some f
    | .need _ _ => none
  | _ => none

def Fits (s : WsState) : Event → Prop
  | .call (.close _ reason) => s.closed = true ∨ reason.length ≤ 123
  | .take t => ∀ f ∈ s.received t, f.Echoes
  | _ => True

instance (s : WsState) (e : Event) : Decidable (s.Fits e) := by
  unfold Fits
  split <;> infer_instance

/-! ## The frame of a step -/

theorem valid_close (code : ℕ) (reason : Bytes) :
    RawFrame.Valid ⟨true, opcodeClose, closePayload code reason⟩ ↔ reason.length ≤ 123 := by
  have hl : (closePayload code reason).length = 2 + reason.length := by
    rw [closePayload, List.length_append]
    rfl
  unfold RawFrame.Valid
  dsimp only
  constructor
  · intro h
    have := (h (by decide)).2.1
    omega
  · exact fun h _ => ⟨rfl, by omega, fun _ => by omega⟩

theorem frame_closeCall (closed : Bool) (code : ℕ) (reason : Bytes) :
    (∀ f ∈ Next.frame (closeCall closed code reason), f.Valid) ↔ closed = true ∨ reason.length ≤ 123 := by
  cases closed with
  | true => simp [closeCall, Next.frame]
  | false => simp [closeCall, Next.frame, valid_close]

/-- A frame is answered with its own payload, or with a short reason. -/
theorem frame_afterFrame (closed : Bool) (r : Reassembly) (g : RawFrame) :
    (∀ f ∈ Next.frame (afterFrameNext closed r g), f.Valid) ↔ g.Echoes := by
  by_cases hc : g.opcode = opcodeClose
  · have he : afterFrameNext closed r g = .write ⟨true, opcodeClose, g.payload⟩ .close := by
      rw [afterFrameNext, Reassembly.onFrame, if_pos hc]
    rw [he]
    simp +decide [Next.frame, RawFrame.Valid, RawFrame.Echoes, hc]
  by_cases hp : g.opcode = opcodePing
  · have he : afterFrameNext closed r g = .write ⟨true, opcodePong, g.payload⟩ (.loop r) := by
      rw [afterFrameNext, Reassembly.onFrame, if_neg hc, if_pos hp]
    rw [he]
    simp +decide [Next.frame, RawFrame.Valid, RawFrame.Echoes, hp]
  -- every other frame is answered by `close` or not at all
  refine iff_of_true ?_ ⟨fun h => absurd h hc, fun h => absurd h hp⟩
  rw [afterFrameNext, Reassembly.onFrame, if_neg hc, if_neg hp]
  split_ifs
  · simp [Next.frame]
  · cases r.messageOpcode with
    | none => exact (frame_closeCall _ _ _).mpr (.inr (by decide))
    | some op => cases g.fin <;> simp [Reassembly.finish, Next.frame]
  · cases g.fin <;> simp [Reassembly.finish, Next.frame]
  · exact (frame_closeCall _ _ _).mpr (.inr (by decide))

theorem frameOf_valid_iff (s : WsState) (e : Event) : (∀ f ∈ s.frameOf e, f.Valid) ↔ s.Fits e := by
  cases e with
  | call c =>
    cases c with
    | receive => simp [frameOf, startCall, Next.frame, Fits]
    | sendText text =>
      refine iff_of_true (fun f hf => ?_) trivial
      cases hf
      exact fun h => absurd h (by decide : ¬8 ≤ opcodeText)
    | sendBinary data =>
      refine iff_of_true (fun f hf => ?_) trivial
      cases hf
      exact fun h => absurd h (by decide : ¬8 ≤ opcodeBinary)
    | close code reason => exact frame_closeCall s.closed code reason
  | take t =>
    cases ht : s.tasks[t]? with
    | none => simp [frameOf, Fits, received, ht]
    | some pc =>
      cases pc with
      | reading r p =>
        cases p with
        | ret f => simp [frameOf, Fits, received, ht]
        | need n k =>
          simp only [frameOf, Fits, received, ht]
          cases k (s.buffer.take n) with
          | ret g => exact (frame_afterFrame s.closed r g).trans (by simp)
          | need n' k' => simp [afterTake, Next.frame]
      | _ => simp [frameOf, Fits, received, ht]
  | _ => simp [frameOf, Fits]

theorem log_enter (s : WsState) (t : ℕ) (next : Next) : (s.enter t next).log = s.log ++ (Next.frame next).toList := by
  cases next with
  | wait pc => exact (List.append_nil _).symm
  | write f k => rfl

theorem log_step {s s' : WsState} {e : Event} (h : s.step e = some s') : s'.log = s.log ++ (s.frameOf e).toList := by
  cases e with
  | call c =>
    cases h
    exact log_enter _ _ _
  | read t bs =>
    simp only [step] at h
    split at h
    · split_ifs at h
      cases h
      unfold fill
      split_ifs <;> exact (List.append_nil _).symm
    · cases h
  | take t =>
    simp only [step] at h
    split at h
    · next ht =>
      split_ifs at h
      cases h
      rw [log_enter, frameOf, ht]
    · cases h
  | write t k =>
    simp only [step] at h
    split at h
    · split_ifs at h
      all_goals
        cases h
        unfold wrote
        split_ifs <;> exact (List.append_nil _).symm
    · cases h
  | fail t =>
    simp only [step] at h
    split at h
    · cases h
      exact (List.append_nil _).symm
    · cases h
      exact (List.append_nil _).symm
    · cases h

/-- **Every frame written is valid** if the reasons of `close` have at most 123 octets and the client's Ping and Close
frames are valid themselves; a step for which this fails writes an invalid frame. -/
theorem frames_valid_iff (buffer : Bytes) :
    (∀ es s, Exec WsState.step Fits { buffer := buffer } es s → ∀ f ∈ s.log, f.Valid) ∧
      ∀ es s e s', Exec WsState.step (fun _ _ => True) { buffer := buffer } es s → s.step e = some s' →
        ((∀ f ∈ s.frameOf e, f.Valid) ↔ s.Fits e) := by
  refine ⟨fun es s h => ?_, fun es s e s' _ _ => frameOf_valid_iff s e⟩
  refine h.inv (I := fun s => ∀ f ∈ s.log, f.Valid) (fun s e s' hc hs hI f hf => ?_) (fun f hf => (by cases hf))
  rw [log_step hs, List.mem_append, Option.mem_toList] at hf
  obtain hf | hf := hf
  · exact hI f hf
  · exact (frameOf_valid_iff s e).mpr hc f hf

/-- A Ping frame with one octet, and a call of `close` without a reason. -/
theorem frames_valid_pong :
    ∃ es s s', Exec WsState.step Fits {} es s ∧ s.log = [⟨true, opcodePong, [0x61]⟩] ∧ (∀ f ∈ s.log, f.Valid) ∧
      s.step (.call (.close 1000 [])) = some s' ∧ ∀ f ∈ s.frameOf (.call (.close 1000 [])), f.Valid := by
  have h : (runChecked WsState.step Fits {} [.call .receive, .read 0 [0x89, 0x01, 0x61], .take 0, .take 0]).map log =
      some [⟨true, opcodePong, [0x61]⟩] := by
    decide +kernel
  obtain ⟨s, hx, he⟩ := exists_exec h
  refine ⟨_, s, _, hx, he, (frames_valid_iff []).1 _ s hx, rfl, ?_⟩
  exact ((frames_valid_iff []).2 _ s _ _ (hx.mono fun _ _ _ => trivial) rfl).mpr (.inr (by decide))

/-- **Invalid frames**: a Close frame with one octet is echoed, and a reason of 124 octets makes one of 126. -/
theorem frames_invalid :
    (∃ es s, Exec WsState.step (fun _ _ => True) {} es s ∧ ∃ f ∈ s.log, ¬f.Valid) ∧
      ∃ f ∈ ({} : WsState).frameOf (.call (.close 1000 (List.replicate 124 0x61))), f.payload.length = 126 ∧ ¬f.Valid := by
  constructor
  · have h : (runChecked WsState.step (fun _ _ => True) {}
        [.call .receive, .read 0 [0x88, 0x01, 0x61], .take 0, .take 0]).map log =
        some [⟨true, opcodeClose, [0x61]⟩] := by
      decide +kernel
    obtain ⟨s, hx, he⟩ := exists_exec h
    exact ⟨_, s, hx, _, he ▸ List.mem_cons_self, by decide⟩
  · refine ⟨_, rfl, by simp [closePayload, bigEndian], fun h => ?_⟩
    exact absurd ((valid_close _ _).mp h) (by rw [List.length_replicate]; decide)

end WsState

end Nhttp.Ws
