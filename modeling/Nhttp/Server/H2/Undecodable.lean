import Nhttp.Server.H2.Continuation

/-!
# Header blocks that cannot be decoded

A decoding error leaves the dynamic table of `hpack_decoder_` in the state it had when the error was
found, and the connection goes on with it.

* `EndsAtFailure`: after a block that cannot be decoded the connection is ended with GOAWAY, and the
  decoder is not used again.
* **`endsAtFailure_iff`**: a run is such if and only if all its blocks can be decoded.
-/

namespace Nhttp.Server

open Octets Protocol Http2 FrameFlags

namespace H2

def completedBlock (s : H2) (fh : FrameHeader) (payload : Bytes) : Option Bytes :=
  if s.refuses fh payload = true ∨ has fh.flags endHeaders = false then none
  else match fh.type with
    | .headers => headersFragment fh payload
    | .continuation =>
      (s.streams.lookup fh.streamId).map fun ref => (s.object ref).headerBlock ++ payload
    | _ => none

def decodes (s : H2) : Event → Option Bytes
  | .loop =>
    match s.loop with
    | .payload fh => (s.takeBuffer fh.length).2.completedBlock fh (s.takeBuffer fh.length).1
    | _ => none
  | _ => none

def BlockDecodes (s : H2) (e : Event) : Prop :=
  ∀ block, s.decodes e = some block → (s.hpackDecoder.decode block []).failed = none

def DecoderUnused : H2 → List Event → Prop
  | _, [] => True
  | s, e :: es => s.decodes e = none ∧ ∀ s', s.step e = some s' → DecoderUnused s' es

/-- A block that cannot be decoded ends the connection with GOAWAY, and is the last one decoded. -/
def EndsAtFailure : H2 → List Event → Prop
  | _, [] => True
  | s, e :: es => ∀ s', s.step e = some s' →
      (¬s.BlockDecodes e → EndsWithGoaway s s' ∧ DecoderUnused s' es) ∧ EndsAtFailure s' es

/-! ## Uses of the decoder -/

section Uses

variable {s s' : H2} {fh : FrameHeader} {payload : Bytes}

theorem hpackDecoder_completeHeaders (s : H2) (ref : ℕ) :
    (s.completeHeaders ref).hpackDecoder =
      (s.hpackDecoder.decode (s.object ref).headerBlock []).decoder := by
  have hf : (s.finishHeaderBlock ref).hpackDecoder =
      (s.hpackDecoder.decode (s.object ref).headerBlock []).decoder := by
    unfold finishHeaderBlock
    dsimp only
    split <;> rfl
  unfold completeHeaders
  dsimp only
  split_ifs
  · obtain ⟨f, pc, called, -, -, -, -, he⟩ := dispatchStream_eq
      ((s.finishHeaderBlock ref).modifyObject ref fun o => { o with endHeaders := true }) ref
    rw [he]
    exact hf
  · exact hf

def decoderAfter (s : H2) : Option Bytes → HpackDecoder
  | none => s.hpackDecoder
  | some block => (s.hpackDecoder.decode block []).decoder

theorem completedBlock_of_ne (h : fh.type ≠ .headers ∧ fh.type ≠ .continuation) :
    s.completedBlock fh payload = none := by
  unfold completedBlock
  by_cases hr : s.refuses fh payload = true ∨ has fh.flags endHeaders = false
  · rw [if_pos hr]
  · rw [if_neg hr]
    split
    · exact absurd ‹_› h.1
    · exact absurd ‹_› h.2
    · rfl

theorem completedBlock_headers (ht : fh.type = .headers) (hr : s.refuses fh payload = false) :
    s.completedBlock fh payload =
      if has fh.flags endHeaders then headersFragment fh payload else none := by
  cases he : has fh.flags endHeaders <;> simp [completedBlock, ht, hr, he]

theorem completedBlock_continuation (ht : fh.type = .continuation)
    (hr : s.refuses fh payload = false) :
    s.completedBlock fh payload =
      if has fh.flags endHeaders then
        (s.streams.lookup fh.streamId).map fun ref => (s.object ref).headerBlock ++ payload
      else none := by
  cases he : has fh.flags endHeaders <;> simp [completedBlock, ht, hr, he]

theorem FrameMove.hpackDecoder_eq (hw : s.Wf) (hm : FrameMove s fh payload s') :
    s'.hpackDecoder = s.decoderAfter (s.completedBlock fh payload) ∧
      (s.completedBlock fh payload ≠ none → s'.loop = .header) := by
  have hnone : s.completedBlock fh payload = none → s'.hpackDecoder = s.hpackDecoder →
      s'.hpackDecoder = s.decoderAfter (s.completedBlock fh payload) ∧
        (s.completedBlock fh payload ≠ none → s'.loop = .header) := by
    intro hn hd
    rw [hn]
    exact ⟨hd, fun h => absurd rfl h⟩
  by_cases ht : fh.type ≠ .headers ∧ fh.type ≠ .continuation
  · exact hnone (completedBlock_of_ne ht) (hm.block_eq ht.1 ht.2).1
  cases hm with
  | refuse hr =>
    obtain ⟨lo, wa, st, he⟩ := loopSend_eq s
      ⟨.goaway, 0, 0, writeGoawayPayload s.highestStreamId protocolError []⟩ .goaway
    exact hnone (by simp [completedBlock, hr]) (by rw [H2.refuse, he])
  | ignore h => exact absurd h ht
  | settings _ _ _ _ h => obtain h | h := h <;> simp [h] at ht
  | windowUpdate _ h | data _ _ h | dataEmpty _ h | rstStream h | goaway h => simp [h] at ht
  | headers ht he =>
    have hr : s.refuses fh payload = false := by simp [refuses, ht, he]
    obtain ⟨-, -, block, hb, rfl⟩ := handleHeaders_eq_some he
    rw [completedBlock_headers ht hr, hb]
    refine ⟨?_, fun _ => rfl⟩
    split_ifs
    · refine (hpackDecoder_completeHeaders _ _).trans ?_
      rw [object_openStream_new]
      rfl
    · rfl
  | continuation ht he =>
    have hr : s.refuses fh payload = false := by simp [refuses, ht, he]
    obtain ⟨-, -, ref, hl, rfl⟩ := handleContinuation_eq_some he
    have hlt : ref < s.objects.length := by
      rw [← length_ids]
      exact lt_length_ids (hw.lookup hl)
    rw [completedBlock_continuation ht hr, hl]
    refine ⟨?_, fun _ => rfl⟩
    have ho : ((s.modifyObject ref fun o => { o with headerBlock := o.headerBlock ++ payload }).object
        ref).headerBlock = (s.object ref).headerBlock ++ payload := by
      rw [object_modifyObject, if_pos ⟨rfl, hlt⟩]
    split_ifs
    · refine (hpackDecoder_completeHeaders _ _).trans ?_
      exact congrArg (fun block => (s.hpackDecoder.decode block []).decoder) ho
    · rfl

end Uses

/-! ## Steps -/

section Step

variable {s s' : H2} {e : Event}

/-- **Uses of the decoder**: a step decodes the block that it completes, and goes on whatever the result. -/
theorem hpackDecoder_step (hw : s.Wf) (hs : s.step e = some s') :
    s'.hpackDecoder = s.decoderAfter (s.decodes e) ∧ (s.decodes e ≠ none → s'.loop = .header) := by
  have hnone : s.decodes e = none → s'.hpackDecoder = s.hpackDecoder →
      s'.hpackDecoder = s.decoderAfter (s.decodes e) ∧ (s.decodes e ≠ none → s'.loop = .header) := by
    intro hn hd
    rw [hn]
    exact ⟨hd, fun h => absurd rfl h⟩
  -- only a step of the loop uses the decoder
  have hother : e ≠ .loop → s'.hpackDecoder = s.hpackDecoder := by
    intro he
    cases move_of_step hs with
    | recv | recvEnd | recvFail | writeFail => rfl
    | loop => exact absurd rfl he
    | write who k hb =>
      have hd : s'.bare.hpackDecoder = s.bare.hpackDecoder := congrArg H2.hpackDecoder hb
      exact hd
    | task e t x hx _ hm =>
      have hd : s'.input.hpackDecoder = s.input.hpackDecoder := congrArg H2.hpackDecoder hm.input_eq
      exact hd
  cases e with
  | loop =>
    have hm := loopMove_of_loopStep hs
    by_cases hp : ∀ fh, s.loop ≠ .payload fh
    · refine hnone ?_ (hm.block_eq hp).1
      cases hl : s.loop with
      | payload fh => exact absurd hl (hp fh)
      | _ => simp [decodes, hl]
    · obtain ⟨fh, hl⟩ := not_forall_not.mp hp
      rw [((step_payload_iff hl).mp hs).2]
      have hd := (frameMove_processFrame _ fh (s.takeBuffer fh.length).1).hpackDecoder_eq
        (hw.takeBuffer fh.length)
      simp only [decodes, hl]
      exact hd
  | _ => exact hnone rfl (hother (by simp))

theorem not_endsWithGoaway (hw : s.Wf) (hs : s.step e = some s') (h : ¬s.BlockDecodes e) :
    ¬EndsWithGoaway s s' := by
  rintro ⟨f, st, -, -, hl⟩
  have hn : s.decodes e ≠ none := fun hn => h fun block hb => by rw [hn] at hb; cases hb
  rw [(hpackDecoder_step hw hs).2 hn] at hl
  cases hl

end Step

/-! ## Runs -/

theorem endsAtFailure_iff_of_wf {s s' : H2} {es : List Event}
    (h : Run.Exec H2.step (fun _ _ => True) s es s') (hw : s.Wf) :
    s.EndsAtFailure es ↔ Run.Exec H2.step BlockDecodes s es s' := by
  induction h with
  | nil => exact ⟨fun _ => .nil _, fun _ => trivial⟩
  | @cons s s₁ s' e es _ hs _ ih =>
    have ih := ih (hw.step hs)
    refine ⟨fun he => ?_, fun hx => ?_⟩
    · obtain ⟨hf, hr⟩ := he s₁ hs
      refine .cons ?_ hs (ih.mp hr)
      by_contra hd
      exact not_endsWithGoaway hw hs hd (hf hd).1
    · cases hx with
      | cons hd hs' hx =>
        rw [hs] at hs'
        cases hs'
        intro s₂ hs2
        rw [hs] at hs2
        cases hs2
        exact ⟨fun h => absurd hd h, ih.mpr hx⟩

/-- **A failed block ends the connection** in a run if and only if no block of the run fails. -/
theorem endsAtFailure_iff {b : Bytes} {es : List Event} {s : H2}
    (h : Run.Exec H2.step (fun _ _ => True) (start b) es s) :
    (start b).EndsAtFailure es ↔ Run.Exec H2.step BlockDecodes (start b) es s :=
  endsAtFailure_iff_of_wf h (wf_start b)

instance (s : H2) (e : Event) : Decidable (s.BlockDecodes e) :=
  decidable_of_iff (∀ block ∈ s.decodes e, (s.hpackDecoder.decode block []).failed = none)
    (by simp [BlockDecodes])

theorem endsAtFailure_two_requests :
    ∃ es s, Run.Exec H2.step BlockDecodes (start (requestsOn [1, 3])) es s ∧ s.tasks.length = 2 ∧
      (start (requestsOn [1, 3])).EndsAtFailure es := by
  have h : (Run.runChecked H2.step BlockDecodes (start (requestsOn [1, 3])) (dispatchEvents 2)).map
      (fun s => s.tasks.length) = some 2 := by
    decide +kernel
  obtain ⟨s, hx, he⟩ := Run.exists_exec h
  exact ⟨_, s, hx, he, (endsAtFailure_iff (hx.mono fun _ _ _ => trivial)).mpr hx⟩

/-- A block that adds the field `a: b` to the dynamic table and then refers to index zero. -/
def brokenFrame (id : ℕ) : Frame :=
  ⟨.headers, endHeaders ||| endStream, id, [0x40, 1, 0x61, 1, 0x62, 0x80]⟩

/-- A request whose second field is the newest entry of the dynamic table. -/
def indexedFrame (id : ℕ) : Frame :=
  ⟨.headers, endHeaders ||| endStream, id, [0x84, 0xbe]⟩

def calledFromTable : Option Action → Bool
  | some (.called 3 req _) => decide (req.headers = [⟨ascii "a", ascii "b"⟩])
  | _ => false

/-- The handler is called for stream 3 with a field from the table that an undecodable block has left. -/
theorem decoder_reused :
    ∃ es s, Run.Exec H2.step (fun _ _ => True)
        (start (clientPreface ++ (brokenFrame 1).bytes ++ (indexedFrame 3).bytes)) es s ∧
      ¬(start (clientPreface ++ (brokenFrame 1).bytes ++ (indexedFrame 3).bytes)).EndsAtFailure es ∧
      s.loop = .header ∧ (s.object 0).malformed = true ∧
      ∃ req body, s.log.head? = some (.called 3 req body) ∧
        req.headers = [⟨ascii "a", ascii "b"⟩] := by
  have h : (Run.runChecked H2.step (fun _ _ => True)
      (start (clientPreface ++ (brokenFrame 1).bytes ++ (indexedFrame 3).bytes))
      (dispatchEvents 2)).map (fun s => (decide (s.loop = .header ∧ (s.object 0).malformed = true),
        calledFromTable s.log.head?)) = some (true, true) := by
    decide +kernel
  obtain ⟨s, hx, he⟩ := Run.exists_exec h
  obtain ⟨hl, hc⟩ := Prod.mk.inj he
  obtain ⟨hl, hm⟩ := of_decide_eq_true hl
  refine ⟨_, s, hx, fun hf => ?_, hl, hm, ?_⟩
  · have hr := ((endsAtFailure_iff_of_wf hx (wf_start _)).mp hf).runChecked_eq
    have hn : Run.runChecked H2.step BlockDecodes
        (start (clientPreface ++ (brokenFrame 1).bytes ++ (indexedFrame 3).bytes))
        (dispatchEvents 2) = none := by
      decide +kernel
    rw [hn] at hr
    cases hr
  · unfold calledFromTable at hc
    split at hc
    · rename_i req body hreq
      exact ⟨req, body, hreq, of_decide_eq_true hc⟩
    · cases hc

end H2

end Nhttp.Server
