import Nhttp.Server.H2.Join

/-!
# Header blocks in several frames

A HEADERS frame without END_HEADERS begins a header block that CONTINUATION frames go on with.

* `openBlock`: the header block in progress after some frames (`block_eq_openBlock`).
* `Faulty`: the frames that are refused while a block is in progress.
* **`block_continued`**: the next frame continues the block or ends the connection with GOAWAY if and
  only if it is such a frame; if all are, the fragments of every block are contiguous.
-/

namespace Nhttp.Server

open Octets Protocol Http2 FrameFlags

/-! ## Sequences of frames -/

def nextBlock (b : Option ℕ) (fh : FrameHeader) : Option ℕ :=
  if fh.type = .headers then
    if has fh.flags endHeaders then none else some fh.streamId
  else if fh.type = .continuation ∧ has fh.flags endHeaders = true then none
  else b

/-- The stream whose header block is in progress after these frames. -/
def openBlock (fs : List FrameHeader) : Option ℕ := fs.foldl nextBlock none

/-- A header block is followed by nothing but its own CONTINUATION frames until it is complete. -/
def Contiguous (fs : List FrameHeader) : Prop :=
  ∀ fs₁ fh fs₂ id, fs = fs₁ ++ fh :: fs₂ → openBlock fs₁ = some id →
    fh.type = .continuation ∧ fh.streamId = id

theorem Contiguous.append {fs : List FrameHeader} {fh : FrameHeader} (h : Contiguous fs)
    (hf : ∀ id, openBlock fs = some id → fh.type = .continuation ∧ fh.streamId = id) :
    Contiguous (fs ++ [fh]) := by
  intro fs₁ g fs₂ id he ho
  obtain rfl | ⟨fs₃, x, rfl⟩ := List.eq_nil_or_concat' fs₂
  · obtain ⟨rfl, h'⟩ := List.append_inj' he rfl
    cases h'
    exact hf id ho
  · rw [← List.cons_append, ← List.append_assoc] at he
    obtain ⟨rfl, -⟩ := List.append_inj' he rfl
    exact h fs₁ g fs₃ id rfl ho

namespace H2

def block (s : H2) : Option ℕ := if s.expectingContinuation then some s.lastHeaderStreamId else none

def accepted (s s' : H2) : List FrameHeader :=
  match s.loop with
  | .payload fh => if s'.loop = .payload fh ∨ s'.loop.leaving = true then [] else [fh]
  | _ => []

def acceptedIn (s : H2) (es : List Event) : List FrameHeader := Run.collect H2.step accepted s es

def EndsWithGoaway (s s' : H2) : Prop :=
  ∃ f st, f.type = .goaway ∧ s'.log = .sent none f :: s.log ∧ s'.loop = .sending st .goaway

/-- What the connection refuses while a header block is in progress. -/
def Faulty (s : H2) (fh : FrameHeader) (payload : Bytes) : Prop :=
  match fh.type with
  | .headers | .continuation => True
  | .settings =>
    fh.streamId ≠ 0 ∨ has fh.flags ack = false ∧ payload.length % 6 ≠ 0
  | .data =>
    match s.streams.lookup fh.streamId with
    | none => False
    | some ref =>
      match stripPadding payload (has fh.flags padded) with
      | none => True
      | some content => s.maxRequestBodySize < (s.object ref).bodyBuffer.length + content.length
  | .windowUpdate => payload.length ≠ 4 ∨ readNumber payload % 2 ^ 31 = 0
  | .ping => fh.streamId ≠ 0 ∨ payload.length ≠ 8
  | _ => False

/-- While a header block is in progress, only such frames come. -/
def Uninterrupted (s : H2) : Event → Prop :=
  s.OnFrame fun fh => s.expectingContinuation = true → s.Faulty fh (s.readBuffer.take fh.length)

/-! ## Refused frames -/

section Refused

variable {s s' : H2} {fh : FrameHeader} {payload : Bytes}

theorem processFrame_of_refuses (h : s.refuses fh payload = true) :
    s.processFrame fh payload = s.refuse := by
  unfold refuses at h
  unfold processFrame
  cases ht : fh.type <;> rw [ht] at h <;>
    simp only [Option.isNone_iff_eq_none, Bool.false_eq_true] at h <;> simp only [h]

theorem endsWithGoaway_refuse (s : H2) : EndsWithGoaway s s.refuse := by
  obtain ⟨lo, wa, st, he⟩ := loopSend_eq s
    ⟨.goaway, 0, 0, writeGoawayPayload s.highestStreamId protocolError []⟩ .goaway
  refine ⟨⟨.goaway, 0, 0, writeGoawayPayload s.highestStreamId protocolError []⟩, st, rfl, ?_, ?_⟩
  · rw [H2.refuse, he]
  · rw [H2.refuse, he]

theorem EndsWithGoaway.leaving (h : EndsWithGoaway s s') : s'.loop.leaving = true := by
  obtain ⟨f, st, -, -, hl⟩ := h
  rw [hl]
  rfl

theorem FrameMove.refuses_of_goaway (hm : FrameMove s fh payload s') (h : EndsWithGoaway s s') :
    s.refuses fh payload = true := by
  have hl := h.leaving
  cases hm with
  | refuse hr => exact hr
  | goaway =>
    obtain ⟨f, st, -, -, hl⟩ := h
    cases hl
  | settings | data => rw [leaving_loopSend _ _ _ (by simp)] at hl; cases hl
  | dataEmpty => rw [leaving_finishData] at hl; cases hl
  | ignore | headers | continuation | windowUpdate | rstStream => cases hl

theorem endsWithGoaway_processFrame :
    EndsWithGoaway s (s.processFrame fh payload) ↔ s.refuses fh payload = true := by
  refine ⟨(frameMove_processFrame s fh payload).refuses_of_goaway, fun h => ?_⟩
  rw [processFrame_of_refuses h]
  exact endsWithGoaway_refuse s

/-- While a header block is in progress, a frame that is not faulty is not refused. -/
theorem faulty_of_refuses (h : s.refuses fh payload = true) : s.Faulty fh payload := by
  unfold refuses at h
  unfold Faulty
  cases ht : fh.type with
  | headers | continuation => trivial
  | settings =>
    simp only [ht, handleSettings, parseSettingsPayload] at h
    by_cases h0 : fh.streamId = 0
    · cases ha : has fh.flags ack with
      | true => simp [h0, ha] at h
      | false =>
        refine .inr ⟨rfl, fun hm => ?_⟩
        simp [h0, ha, hm] at h
    · exact .inl h0
  | data =>
    simp only [ht, handleData] at h
    cases hl : s.streams.lookup fh.streamId with
    | none => simp [hl] at h
    | some ref =>
      cases hp : stripPadding payload (has fh.flags padded) with
      | none => simp
      | some content =>
        simp only [hl, hp] at h
        by_contra hb
        simp only at hb
        simp [hb] at h
  | windowUpdate =>
    simp only [ht, handleWindowUpdate, creditWindows, parseWindowUpdatePayload] at h
    by_contra hb
    obtain ⟨h1, h2⟩ := not_or.mp hb
    rw [if_neg h1] at h
    simp only [if_neg h2] at h
    split_ifs at h
    · cases h
    · split at h <;> cases h
  | ping =>
    simp only [ht, handlePing] at h
    by_contra hb
    rw [if_neg hb] at h
    cases h
  | _ => simp [ht] at h

theorem refuses_of_faulty (he : s.expectingContinuation = true) (h : s.Faulty fh payload) :
    fh.type = .continuation ∧ fh.streamId = s.lastHeaderStreamId ∨ s.refuses fh payload = true := by
  unfold Faulty at h
  unfold refuses
  cases ht : fh.type with
  | headers => exact .inr (by simp [handleHeaders, he])
  | continuation =>
    by_cases hi : fh.streamId = s.lastHeaderStreamId
    · exact .inl ⟨rfl, hi⟩
    · exact .inr (by simp [handleContinuation, hi])
  | settings =>
    rw [ht] at h
    obtain h | ⟨ha, hm⟩ := h
    · exact .inr (by simp [handleSettings, h])
    · exact .inr (by simp [handleSettings, parseSettingsPayload, ha, hm])
  | data =>
    rw [ht] at h
    refine .inr ?_
    cases hl : s.streams.lookup fh.streamId with
    | none =>
      simp only [hl] at h
    | some ref =>
      simp only [hl] at h
      cases hp : stripPadding payload (has fh.flags padded) with
      | none => simp [handleData, hl, hp]
      | some content =>
        rw [hp] at h
        simp [handleData, hl, hp, h]
  | windowUpdate =>
    rw [ht] at h
    refine .inr ?_
    obtain h | h := h
    · simp [handleWindowUpdate, creditWindows, parseWindowUpdatePayload, h]
    · by_cases h1 : payload.length = 4
      · have hn : parseWindowUpdatePayload payload = some 0 := by
          rw [parseWindowUpdatePayload, if_neg (not_not.mpr h1), h]
        simp [handleWindowUpdate, creditWindows, hn]
      · simp [handleWindowUpdate, creditWindows, parseWindowUpdatePayload, h1]
  | ping =>
    rw [ht] at h
    refine .inr ?_
    simp only [handlePing]
    rw [if_pos h]
    rfl
  | _ =>
    rw [ht] at h
    exact h.elim

theorem continues_or_goaway_iff (he : s.expectingContinuation = true) :
    (fh.type = .continuation ∧ fh.streamId = s.lastHeaderStreamId ∨
      EndsWithGoaway s (s.processFrame fh payload)) ↔ s.Faulty fh payload := by
  rw [endsWithGoaway_processFrame]
  refine ⟨fun h => ?_, refuses_of_faulty he⟩
  obtain ⟨ht, -⟩ | h := h
  · simp [Faulty, ht]
  · exact faulty_of_refuses h

end Refused

/-! ## The header block in progress -/

section Block

variable {s s' : H2} {fh : FrameHeader} {payload : Bytes}

theorem block_completeHeaders (s : H2) (ref : ℕ) : (s.completeHeaders ref).block = s.block := by
  obtain ⟨dec, f, -, he | he⟩ := completeHeaders_eq s ref
  · rw [he]
    rfl
  · obtain ⟨f, pc, called, -, -, -, -, he'⟩ := dispatchStream_eq _ ref
    rw [he, he']
    rfl

theorem block_handleHeaders (ht : fh.type = .headers) (h : s.handleHeaders fh payload = some s') :
    s'.block = nextBlock s.block fh := by
  obtain ⟨-, hx, block, -, rfl⟩ := handleHeaders_eq_some h
  unfold nextBlock
  split_ifs
  · rw [block_completeHeaders]
    simp [H2.block, openStream, hx]
  · rfl

theorem block_handleContinuation (ht : fh.type = .continuation)
    (h : s.handleContinuation fh payload = some s') : s'.block = nextBlock s.block fh := by
  obtain ⟨-, -, ref, -, rfl⟩ := handleContinuation_eq_some h
  have hn : nextBlock s.block fh =
      if has fh.flags endHeaders then none else s.block := by
    simp [nextBlock, ht]
  rw [hn]
  split_ifs
  · rw [block_completeHeaders]
    rfl
  · rfl

theorem FrameMove.block_eq_nextBlock (hm : FrameMove s fh payload s') :
    s'.loop.leaving = true ∧ s'.block = s.block ∨
      s'.loop.leaving = false ∧ s'.block = nextBlock s.block fh := by
  by_cases ht : fh.type ≠ .headers ∧ fh.type ≠ .continuation
  · obtain ⟨-, h1, h2⟩ := hm.block_eq ht.1 ht.2
    have hb : s'.block = s.block := by rw [block, block, h1, h2]
    have hn : nextBlock s.block fh = s.block := by
      rw [nextBlock, if_neg ht.1, if_neg fun hc => ht.2 hc.1]
    rw [hn, hb]
    cases s'.loop.leaving <;> simp
  · cases hm with
    | refuse =>
      obtain ⟨lo, wa, st, he⟩ := loopSend_eq s
        ⟨.goaway, 0, 0, writeGoawayPayload s.highestStreamId protocolError []⟩ .goaway
      exact .inl ⟨(endsWithGoaway_refuse s).leaving, by rw [H2.refuse, he]; rfl⟩
    | headers ht he =>
      have hb := block_handleHeaders ht he
      exact .inr ⟨rfl, hb⟩
    | continuation ht he =>
      have hb := block_handleContinuation ht he
      exact .inr ⟨rfl, hb⟩
    | ignore h => exact absurd h ht
    | settings _ _ _ _ h => obtain h | h := h <;> simp [h] at ht
    | windowUpdate _ h | data _ _ h | dataEmpty _ h | rstStream h | goaway h => simp [h] at ht

theorem FrameMove.loop_ne (hm : FrameMove s fh payload s') (fh' : FrameHeader) :
    s'.loop ≠ .payload fh' := by
  have hsend : ∀ (s : H2) f k, (s.loopSend f k).loop ≠ .payload fh' := by
    intro s f k
    obtain ⟨lo, wa, st, he⟩ := loopSend_eq s f k
    rw [he]
    simp
  cases hm with
  | refuse | settings | data => exact hsend _ _ _
  | dataEmpty ref =>
    rw [loop_finishData]
    simp
  | ignore | headers | continuation | windowUpdate | rstStream | goaway => simp [nextFrame]

theorem accepted_of_loop_eq (h : s'.loop = s.loop ∨ s'.loop.leaving = true) : accepted s s' = [] := by
  unfold accepted
  split
  · rename_i fh hl
    rw [hl] at h
    rw [if_pos h]
  · rfl

theorem accepted_step {e : Event} (hs : s.step e = some s') :
    accepted s s' = [] ∧ s'.block = s.block ∨
      ∃ fh, s.loop = .payload fh ∧ e = .loop ∧ accepted s s' = [fh] ∧ s'.loop.leaving = false ∧
        s'.block = nextBlock s.block fh ∧
        s' = (s.takeBuffer fh.length).2.processFrame fh (s.takeBuffer fh.length).1 := by
  cases move_of_step hs with
  | recv => exact .inl ⟨accepted_of_loop_eq (.inl rfl), rfl⟩
  | recvEnd | recvFail | writeFail => exact .inl ⟨accepted_of_loop_eq (.inr rfl), rfl⟩
  | write who k hb =>
    have hl : s'.loop.erase = s.loop.erase := congrArg H2.loop hb
    have hbl : s'.bare.block = s.bare.block := congrArg block hb
    refine .inl ⟨?_, hbl⟩
    cases hp : s.loop with
    | payload fh =>
      refine accepted_of_loop_eq (.inl ?_)
      rw [hp] at hl ⊢
      cases hp' : s'.loop <;> rw [hp'] at hl <;> cases hl
      rfl
    | _ => simp [accepted, hp]
  | task e t x hx _ hm =>
    have hb : s'.input.block = s.input.block := congrArg block hm.input_eq
    exact .inl ⟨accepted_of_loop_eq (.inl hm.loop_eq.1), hb⟩
  | loop hm =>
    by_cases hp : ∀ fh, s.loop ≠ .payload fh
    · obtain ⟨-, h1, h2⟩ := hm.block_eq hp
      refine .inl ⟨?_, by rw [block, block, h1, h2]⟩
      unfold accepted
      split
      · exact absurd ‹_› (hp _)
      · rfl
    · obtain ⟨fh, hl⟩ := not_forall_not.mp hp
      have heq := ((step_payload_iff hl).mp hs).2
      have hf : FrameMove (s.takeBuffer fh.length).2 fh (s.takeBuffer fh.length).1 s' :=
        heq ▸ frameMove_processFrame _ _ _
      obtain ⟨hlv, hb⟩ | ⟨hlv, hb⟩ := hf.block_eq_nextBlock
      · exact .inl ⟨accepted_of_loop_eq (.inr hlv), hb⟩
      · refine .inr ⟨fh, hl, rfl, ?_, hlv, hb, heq⟩
        simp [accepted, hl, hlv, hf.loop_ne]

end Block

/-! ## Runs -/

variable {C : H2 → Event → Prop} {es : List Event} {b : Bytes}

theorem acceptedIn_append {s s₁ s' : H2} {e : Event}
    (h : Run.Exec H2.step C s es s₁) (hs : s₁.step e = some s') :
    s.acceptedIn (es ++ [e]) = s.acceptedIn es ++ accepted s₁ s' :=
  h.collect_append hs

/-- **The connection keeps the header block in progress.** -/
theorem block_eq_openBlock {s : H2}
    (h : Run.Exec H2.step C (start b) es s) : s.block = openBlock ((start b).acceptedIn es) := by
  refine h.snoc_induction (P := fun es s => s.block = openBlock ((start b).acceptedIn es)) rfl ?_
  intro es s e s' hx _ hs ih
  rw [acceptedIn_append hx hs, openBlock, List.foldl_append, ← openBlock, ← ih]
  obtain ⟨ha, hb⟩ | ⟨fh, -, -, ha, -, hb, -⟩ := accepted_step hs
  · rw [ha, hb]
    rfl
  · rw [ha, hb]
    rfl

theorem block_eq_some {s : H2} {id : ℕ} :
    s.block = some id ↔ s.expectingContinuation = true ∧ s.lastHeaderStreamId = id := by
  cases hx : s.expectingContinuation <;> simp [block, hx]

theorem endsWithGoaway_step {s s' : H2} {fh : FrameHeader} (hl : s.loop = .payload fh)
    (hx : s.expectingContinuation = true) (hs : s.step .loop = some s') :
    (fh.type = .continuation ∧ fh.streamId = s.lastHeaderStreamId ∨ EndsWithGoaway s s') ↔
      s.Faulty fh (s.readBuffer.take fh.length) := by
  rw [((step_payload_iff hl).mp hs).2]
  exact continues_or_goaway_iff (s := (s.takeBuffer fh.length).2) hx

theorem contiguous_of_uninterrupted {s : H2}
    (h : Run.Exec H2.step Uninterrupted (start b) es s) : Contiguous ((start b).acceptedIn es) := by
  refine h.snoc_induction (P := fun es _ => Contiguous ((start b).acceptedIn es))
    (fun fs₁ fh fs₂ id he => by cases fs₁ <;> cases he) ?_
  intro es s e s' hx hc hs ih
  rw [acceptedIn_append hx hs]
  obtain ⟨ha, -⟩ | ⟨fh, hl, rfl, ha, hlv, -, -⟩ := accepted_step hs
  · rw [ha, List.append_nil]
    exact ih
  · rw [ha]
    refine ih.append fun id ho => ?_
    rw [← block_eq_openBlock hx] at ho
    obtain ⟨hexp, hid⟩ := block_eq_some.mp ho
    obtain h' | h' := (endsWithGoaway_step hl hexp hs).mpr (OnFrame.frame hc hl hexp)
    · exact ⟨h'.1, h'.2.trans hid⟩
    · rw [h'.leaving] at hlv
      cases hlv

/-- **A header block in progress.** The next frame continues the block or ends the connection with GOAWAY if and only if
it is `Faulty`. If all frames are, the fragments of every block are contiguous. -/
theorem block_continued {b : Bytes} {es : List Event} {s : H2}
    (h : Run.Exec H2.step (fun _ _ => True) (start b) es s) :
    (∀ fh id s', s.loop = .payload fh → openBlock ((start b).acceptedIn es) = some id →
      s.step .loop = some s' →
      ((fh.type = .continuation ∧ fh.streamId = id ∨ EndsWithGoaway s s') ↔
        s.Faulty fh (s.readBuffer.take fh.length))) ∧
    (Run.Exec H2.step Uninterrupted (start b) es s → Contiguous ((start b).acceptedIn es)) := by
  refine ⟨fun fh id s' hl ho hs => ?_, contiguous_of_uninterrupted⟩
  rw [← block_eq_openBlock h] at ho
  obtain ⟨hexp, rfl⟩ := block_eq_some.mp ho
  exact endsWithGoaway_step hl hexp hs

def firstFragment (id : ℕ) : Frame := ⟨.headers, endStream, id, [0x84]⟩

def lastFragment (id : ℕ) : Frame := ⟨.continuation, endHeaders, id, [0x82]⟩

def pingFrame : Frame := ⟨.ping, 0, 0, List.replicate 8 0⟩

instance (s : H2) (fh : FrameHeader) (payload : Bytes) : Decidable (s.Faulty fh payload) := by
  unfold Faulty
  split
  · infer_instance
  · infer_instance
  · infer_instance
  · split
    · infer_instance
    · split <;> infer_instance
  · infer_instance
  · infer_instance
  · infer_instance

instance (s : H2) (e : Event) : Decidable (s.Uninterrupted e) := inferInstanceAs (Decidable (s.OnFrame _ e))

/-- Two fragments in a row. -/
theorem block_continued_two_fragments :
    ∃ es s, Run.Exec H2.step Uninterrupted
        (start (clientPreface ++ (firstFragment 1).bytes ++ (lastFragment 1).bytes)) es s ∧
      ((start (clientPreface ++ (firstFragment 1).bytes ++ (lastFragment 1).bytes)).acceptedIn
        es).length = 2 ∧
      Contiguous ((start (clientPreface ++ (firstFragment 1).bytes ++ (lastFragment 1).bytes)).acceptedIn
        es) := by
  have h : (Run.runChecked H2.step Uninterrupted
      (start (clientPreface ++ (firstFragment 1).bytes ++ (lastFragment 1).bytes))
      (dispatchEvents 2)).map (fun s => s.tasks.length) = some 1 := by
    decide +kernel
  obtain ⟨s, hx, -⟩ := Run.exists_exec h
  exact ⟨_, s, hx, by decide +kernel, (block_continued (hx.mono fun _ _ _ => trivial)).2 hx⟩

/-- A PING between two fragments is answered, and the header block is completed after it. -/
theorem block_interrupted :
    ∃ es s, Run.Exec H2.step (fun _ _ => True)
        (start (clientPreface ++ (firstFragment 1).bytes ++ pingFrame.bytes ++ (lastFragment 1).bytes))
        es s ∧
      ¬Contiguous ((start (clientPreface ++ (firstFragment 1).bytes ++ pingFrame.bytes ++
        (lastFragment 1).bytes)).acceptedIn es) ∧
      s.loop = .header ∧ s.tasks.length = 1 ∧
      Action.sent none ⟨.ping, ack, 0, List.replicate 8 0⟩ ∈ s.log := by
  have h : (Run.runChecked H2.step (fun _ _ => True)
      (start (clientPreface ++ (firstFragment 1).bytes ++ pingFrame.bytes ++ (lastFragment 1).bytes))
      (dispatchEvents 1 ++ [.loop, .loop, .write .loop 17, .loop, .loop, .loop])).map
        (fun s => decide (s.loop = .header ∧ s.tasks.length = 1 ∧
          Action.sent none ⟨.ping, ack, 0, List.replicate 8 0⟩ ∈ s.log)) = some true := by
    decide +kernel
  obtain ⟨s, hx, he⟩ := Run.exists_exec h
  refine ⟨_, s, hx, fun hc => ?_, of_decide_eq_true he⟩
  have ha : (start (clientPreface ++ (firstFragment 1).bytes ++ pingFrame.bytes ++
      (lastFragment 1).bytes)).acceptedIn
        (dispatchEvents 1 ++ [.loop, .loop, .write .loop 17, .loop, .loop, .loop]) =
      [⟨1, .headers, 1, 1⟩] ++ ⟨8, .ping, 0, 0⟩ :: [⟨1, .continuation, 4, 1⟩] := by
    decide +kernel
  obtain ⟨ht, -⟩ := hc _ _ _ 1 ha rfl
  cases ht

end H2

end Nhttp.Server
