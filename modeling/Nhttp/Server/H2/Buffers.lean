import Nhttp.Server.H2.Credit

/-!
# What a stream may buffer

A stream object holds its header block and the body received so far. `handle_data` checks the size of
the body; nothing checks that of the header block, which grows with every CONTINUATION frame.

* `ShortBlocks`: a CONTINUATION frame keeps the header block below the size of one frame.
* **`buffered_le`**: in such runs no stream object holds more than the body limit and one frame.
-/

open List

namespace Nhttp.Http2

open Octets

theorem length_stripPadding_le {payload content : Bytes} {padded : Bool}
    (h : stripPadding payload padded = some content) : content.length ≤ payload.length := by
  unfold stripPadding at h
  split_ifs at h
  · split at h
    · cases h
    · split_ifs at h
      cases h
      rw [length_take, length_cons]
      omega
  · cases h
    exact le_rfl

end Nhttp.Http2

namespace Nhttp.Server

open Octets Protocol Http2 Lists

def H2Stream.buffers (o : H2Stream) : Bytes × Bytes := (o.headerBlock, o.bodyBuffer)

namespace H2

def buffered (s : H2) (ref : ℕ) : ℕ :=
  (s.object ref).headerBlock.length + (s.object ref).bodyBuffer.length

def ShortBlocks (s : H2) : Event → Prop :=
  s.OnFrame fun fh => fh.type = .continuation → ∀ ref ∈ s.streams.lookup fh.streamId,
    (s.object ref).headerBlock.length + fh.length < 2 ^ 24

instance (s : H2) (e : Event) : Decidable (s.ShortBlocks e) := inferInstanceAs (Decidable (s.OnFrame _ e))

def held (s : H2) : ℕ × List (Bytes × Bytes) :=
  (s.maxRequestBodySize, s.objects.map H2Stream.buffers)

/-- Header blocks below the size of a frame, bodies within the limit. -/
def Bounded (s : H2) : Prop :=
  s.held.1 = 16 * 1024 * 1024 ∧
    ∀ p ∈ s.held.2, p.1.length < 2 ^ 24 ∧ p.2.length ≤ 16 * 1024 * 1024

/-! ## Steps that buffer nothing -/

section Held

variable {s s' : H2} {fh : FrameHeader} {payload : Bytes}

theorem held_modifyObject {f : H2Stream → H2Stream} (hf : ∀ o, (f o).buffers = o.buffers) (s : H2)
    (ref : ℕ) : (s.modifyObject ref f).held = s.held :=
  congrArg (Prod.mk s.maxRequestBodySize) (map_modify_of_keeps hf s.objects ref)

theorem held_dispatchStream (s : H2) (ref : ℕ) : (s.dispatchStream ref).held = s.held := by
  have hm : (s.modifyObject ref fun o => { o with headers := [] }).held = s.held :=
    held_modifyObject (by intro _; rfl) s ref
  unfold dispatchStream
  dsimp only
  split_ifs
  · rfl
  · exact hm
  · exact hm

theorem held_loopSend (s : H2) (f : Frame) (k : LoopCont) : (s.loopSend f k).held = s.held := by
  obtain ⟨lo, wa, st, he⟩ := loopSend_eq s f k
  rw [he]
  rfl

theorem held_wake (s : H2) (ref : ℕ) : (s.wake ref).held = s.held := by
  unfold wake
  split
  · rfl
  · exact held_modifyObject (f := fun o => { o with windowWaiter := none }) (fun _ => rfl) s ref

theorem held_work {r : Option (ℕ × ℕ)} (hw : Work fh r s s') : s'.held = s.held := by
  induction hw with
  | refl | block => rfl
  | trans _ _ h h' => exact h'.trans h
  | object s _ hf => exact held_modifyObject (fun o => congrArg (fun p => p.2.2.2) (hf o)) s _
  | dispatched s => exact held_dispatchStream s _
  | woken s ref => exact held_wake s ref

theorem held_completeHeaders (s : H2) (ref : ℕ) : (s.completeHeaders ref).held = s.held := by
  have hw : Work ⟨0, .headers, 0, 0⟩ (some (ref, 0)) s (s.completeHeaders ref) :=
    work_completeHeaders (.inl rfl) s ref 0
  exact held_work hw

theorem held_finishData (s : H2) (fh : FrameHeader) (ref : ℕ) :
    (s.finishData fh ref).held = s.held := by
  obtain ⟨s₁, hw, he⟩ := work_finishData s fh fh ref 0
  rw [he]
  exact (held_work hw :)

theorem held_handleWindowUpdate (h : s.handleWindowUpdate fh payload = some s') :
    s'.held = s.held := by
  obtain rfl | ⟨inc, l, rfl⟩ | ⟨ref, inc, -, rfl⟩ := handleWindowUpdate_eq_some h
  · rfl
  · exact foldl_wake_inv (I := fun s' => s'.held = s.held)
      (fun s ref h => (held_wake s ref).trans h) l rfl
  · refine (held_wake _ ref).trans ?_
    exact held_modifyObject (f := fun o => { o with sendWindow := o.sendWindow + inc }) (fun _ => rfl)
      s ref

theorem held_task {t : ℕ} {x : Task} (hm : TaskMove s t x s') : s'.held = s.held := by
  obtain ⟨f, streams, c, lo, wa, pc, acts, hf, -, -, rfl⟩ := hm.effect
  exact held_modifyObject (fun o => by rw [hf o]; rfl) s x.ref

end Held

/-! ## Steps that buffer -/

namespace Bounded

variable {s s' : H2} {fh : FrameHeader} {payload : Bytes}

theorem of_held (h : s.Bounded) (he : s'.held = s.held) : s'.Bounded := by
  unfold Bounded
  rw [he]
  exact h

theorem object (h : s.Bounded) (ref : ℕ) :
    (s.object ref).headerBlock.length < 2 ^ 24 ∧
      (s.object ref).bodyBuffer.length ≤ 16 * 1024 * 1024 := by
  by_cases hr : ref < s.objects.length
  · have hm : (s.object ref).buffers ∈ s.held.2 := by
      refine mem_map_of_mem ?_
      unfold H2.object
      rw [getD_eq_getElem _ _ hr]
      exact getElem_mem hr
    exact h.2 _ hm
  · unfold H2.object
    rw [getD_eq_default _ _ (Nat.le_of_not_lt hr)]
    exact ⟨by decide, by decide⟩

theorem modifyObject (h : s.Bounded) {f : H2Stream → H2Stream} {ref : ℕ}
    (hf : (f (s.object ref)).headerBlock.length < 2 ^ 24 ∧
      (f (s.object ref)).bodyBuffer.length ≤ 16 * 1024 * 1024) : (s.modifyObject ref f).Bounded := by
  refine ⟨h.1, fun p hp => ?_⟩
  obtain ⟨o, ho, rfl⟩ := mem_map.mp hp
  obtain ⟨i, hi⟩ := mem_iff_getElem?.mp ho
  have hlt : i < (s.modifyObject ref f).objects.length := (List.getElem?_eq_some_iff.mp hi).1
  have hobj : o = (s.modifyObject ref f).object i := by
    unfold H2.object
    rw [getD_eq_getElem?_getD, hi]
    rfl
  rw [hobj, object_modifyObject]
  split_ifs with hc
  · rw [← hc.1]
    exact hf
  · exact h.object i

theorem openStream (h : s.Bounded) (id : ℕ) {block : Bytes} (hb : block.length < 2 ^ 24)
    (endStream : Bool) : (s.openStream id block endStream).Bounded := by
  refine ⟨h.1, fun p hp => ?_⟩
  simp only [held, H2.openStream, map_append, mem_append] at hp
  obtain hp | hp := hp
  · exact h.2 p hp
  · rw [map_singleton, mem_singleton] at hp
    rw [hp]
    exact ⟨hb, by simp [H2Stream.buffers]⟩

theorem length_headersFragment_le {block : Bytes} (h : headersFragment fh payload = some block) :
    block.length ≤ payload.length := by
  unfold headersFragment at h
  cases hs : stripPadding payload (FrameFlags.has fh.flags FrameFlags.padded) with
  | none =>
    rw [hs] at h
    cases h
  | some content =>
    have hl := length_stripPadding_le hs
    rw [hs] at h
    dsimp only at h
    split_ifs at h
    · cases h
      rw [length_drop]
      omega
    · cases h
      exact hl

theorem handleHeaders (h : s.Bounded) (hp : payload.length < 2 ^ 24)
    (he : s.handleHeaders fh payload = some s') : s'.Bounded := by
  obtain ⟨-, -, block, hb, rfl⟩ := handleHeaders_eq_some he
  have ho := h.openStream fh.streamId ((length_headersFragment_le hb).trans_lt hp)
    (FrameFlags.has fh.flags FrameFlags.endStream)
  split_ifs
  · exact ho.of_held (held_completeHeaders _ _)
  · exact ho.of_held rfl

theorem handleContinuation (h : s.Bounded)
    (hp : ∀ ref ∈ s.streams.lookup fh.streamId,
      (s.object ref).headerBlock.length + payload.length < 2 ^ 24)
    (he : s.handleContinuation fh payload = some s') : s'.Bounded := by
  obtain ⟨-, -, ref, hl, rfl⟩ := handleContinuation_eq_some he
  have hm : (s.modifyObject ref fun o => { o with headerBlock := o.headerBlock ++ payload }).Bounded := by
    refine h.modifyObject ⟨?_, (h.object ref).2⟩
    rw [length_append]
    exact hp ref hl
  split_ifs
  · exact (hm.of_held rfl).of_held (held_completeHeaders _ _)
  · exact hm

theorem handleData {r : Option ℕ} (h : s.Bounded) (he : s.handleData fh payload = some (s', r)) :
    s'.Bounded := by
  obtain ⟨-, -, rfl⟩ | ⟨ref, content, -, -, hsize, rfl⟩ := handleData_eq_some he
  · exact h
  · have hmax : s.maxRequestBodySize = 16 * 1024 * 1024 := h.1
    refine h.modifyObject ⟨(h.object ref).1, ?_⟩
    rw [length_append]
    omega

theorem frameMove (h : s.Bounded) (hp : payload.length < 2 ^ 24)
    (hc : fh.type = .continuation → ∀ ref ∈ s.streams.lookup fh.streamId,
      (s.object ref).headerBlock.length + payload.length < 2 ^ 24)
    (hm : FrameMove s fh payload s') : s'.Bounded := by
  cases hm with
  | refuse => exact h.of_held (held_loopSend _ _ _)
  | ignore | rstStream | goaway => exact h.of_held rfl
  | settings => exact h.of_held (held_loopSend _ _ _)
  | headers _ he => exact (h.handleHeaders hp he).of_held rfl
  | continuation ht he => exact (h.handleContinuation (hc ht) he).of_held rfl
  | data ref f _ he => exact (h.handleData he).of_held (held_loopSend _ _ _)
  | dataEmpty ref _ he => exact (h.handleData he).of_held (held_finishData _ _ _)
  | windowUpdate he =>
    have hw := held_handleWindowUpdate he
    exact h.of_held hw

theorem loopMove (h : s.Bounded) (hs : s.Small) (hc : s.ShortBlocks .loop) (hm : LoopMove s s') :
    s'.Bounded := by
  cases hm with
  | preface f => exact h.of_held (held_loopSend _ _ _)
  | badPreface | header => exact h.of_held rfl
  | frame fh hl hf =>
    have hlen : (s.takeBuffer fh.length).1.length ≤ fh.length := length_take_le _ _
    have hsm := hs.frame fh (by rw [hl]; rfl)
    have hb : (s.takeBuffer fh.length).2.Bounded := h.of_held rfl
    refine hb.frameMove (by omega) (fun ht ref href => ?_) hf
    have hlt := OnFrame.frame hc hl ht ref href
    have ho : ((s.takeBuffer fh.length).2.object ref).headerBlock = (s.object ref).headerBlock := rfl
    rw [ho]
    omega
  | sent k hk =>
    cases k with
    | next | goaway => exact h.of_held rfl
    | dataStream => exact h.of_held (held_loopSend _ _ _)
    | dataConnection => exact h.of_held (held_finishData _ _ _)

theorem step {e : Event} (h : s.Bounded) (hs : s.Small) (hc : s.ShortBlocks e)
    (he : s.step e = some s') : s'.Bounded := by
  cases move_of_step he with
  | recv | recvEnd | recvFail | writeFail => exact h.of_held rfl
  | loop hm => exact h.loopMove hs hc hm
  | write who k hb =>
    have hd : s'.bare.held = s.bare.held := congrArg held hb
    exact h.of_held hd
  | task e t x _ _ hm => exact h.of_held (held_task hm)

end Bounded

/-! ## Runs -/

/-- **A stream object holds at most the body limit and one frame** if CONTINUATION frames keep the header block short. -/
theorem buffered_le {b : Bytes} {es : List Event} {s : H2}
    (h : Run.Exec H2.step ShortBlocks (start b) es s) (ref : ℕ) :
    s.buffered ref ≤ 16 * 1024 * 1024 + (2 ^ 24 - 1) := by
  have hi : s.Small ∧ s.Bounded := by
    refine h.inv (I := fun s => s.Small ∧ s.Bounded)
      (fun s e s' hc hs hi => ⟨hi.1.step hs, hi.2.step hi.1 hc hs⟩)
      ⟨⟨fun _ hf => (by cases hf), fun _ he => (by cases he)⟩, rfl, fun _ hp => (by cases hp)⟩
  obtain ⟨h₁, h₂⟩ := hi.2.object ref
  unfold buffered
  omega

/-- A block in two fragments. -/
theorem buffered_le_two_fragments :
    ∃ es s, Run.Exec H2.step ShortBlocks
        (start (clientPreface ++ (firstFragment 1).bytes ++ (lastFragment 1).bytes)) es s ∧
      s.buffered 0 = 2 ∧ s.buffered 0 ≤ 16 * 1024 * 1024 + (2 ^ 24 - 1) := by
  have h : (Run.runChecked H2.step ShortBlocks
      (start (clientPreface ++ (firstFragment 1).bytes ++ (lastFragment 1).bytes))
      (dispatchEvents 2)).map (fun s => s.buffered 0) = some 2 := by
    decide +kernel
  obtain ⟨s, hx, he⟩ := Run.exists_exec h
  exact ⟨_, s, hx, he, buffered_le hx 0⟩

def moreFragment : Frame := ⟨.continuation, 0, 1, [0x84]⟩

structure InBlock (s : H2) : Prop where
  loop : s.loop = .header
  readBuffer : s.readBuffer = []
  expecting : s.expectingContinuation = true
  last : s.lastHeaderStreamId = 1
  streams : s.streams.lookup 1 = some 0
  objects : 0 < s.objects.length

theorem processFrame_of_handleContinuation {s s' : H2} {fh : FrameHeader} {payload : Bytes}
    (ht : fh.type = .continuation) (h : s.handleContinuation fh payload = some s') :
    s.processFrame fh payload = s'.nextFrame := by
  unfold processFrame
  rw [ht]
  rw [h]

theorem step_moreFragment {s : H2} (hl : s.loop = .payload ⟨1, .continuation, 0, 1⟩)
    (hb : s.readBuffer = [0x84]) (hx : s.expectingContinuation = true) (hid : s.lastHeaderStreamId = 1)
    (hr : s.streams.lookup 1 = some 0) :
    s.step .loop = some ((s.takeBuffer 1).2.modifyObject 0 fun o =>
      { o with headerBlock := o.headerBlock ++ [0x84] }).nextFrame := by
  have ht : (s.takeBuffer 1).1 = [0x84] := by
    simp [takeBuffer, hb]
  have hc : (s.takeBuffer 1).2.handleContinuation ⟨1, .continuation, 0, 1⟩ [0x84] =
      some ((s.takeBuffer 1).2.modifyObject 0 fun o =>
        { o with headerBlock := o.headerBlock ++ [0x84] }) := by
    have hn : ¬(¬(s.takeBuffer 1).2.expectingContinuation = true ∨
        1 ≠ (s.takeBuffer 1).2.lastHeaderStreamId) := by
      simp [takeBuffer, hx, hid]
    have hr' : (s.takeBuffer 1).2.streams.lookup 1 = some 0 := hr
    unfold handleContinuation
    rw [if_neg hn, hr']
    rfl
  refine (step_payload_iff hl).mpr ⟨hb ▸ le_rfl, ?_⟩
  rw [ht, processFrame_of_handleContinuation rfl hc]

theorem InBlock.more {s : H2} (h : s.InBlock) :
    ∃ s', Run.Exec H2.step (fun _ _ => True) s [.recv moreFragment.bytes, .loop, .loop] s' ∧
      s'.InBlock ∧ (s'.object 0).headerBlock.length = (s.object 0).headerBlock.length + 1 := by
  have h1 : s.step (.recv moreFragment.bytes) =
      some { s with readBuffer := s.readBuffer ++ moreFragment.bytes } := by
    simp only [step, wanted, h.loop, h.readBuffer]
    rfl
  have h2 : ({ s with readBuffer := s.readBuffer ++ moreFragment.bytes } : H2).step .loop =
      some { s with readBuffer := [0x84], loop := .payload ⟨1, .continuation, 0, 1⟩ } := by
    simp only [step, loopStep, wanted, h.loop, h.readBuffer]
    rfl
  have h3 := step_moreFragment
    (s := { s with readBuffer := [0x84], loop := .payload ⟨1, .continuation, 0, 1⟩ })
    rfl rfl h.expecting h.last h.streams
  refine ⟨_, .cons trivial h1 (.cons trivial h2 (.cons trivial h3 (.nil _))), ?_, ?_⟩
  · refine ⟨rfl, rfl, h.expecting, h.last, h.streams, ?_⟩
    exact h.objects.trans_eq (length_modify _ _ _).symm
  · have ho := object_modifyObject s 0 0 fun o => { o with headerBlock := o.headerBlock ++ [0x84] }
    rw [if_pos ⟨rfl, h.objects⟩] at ho
    refine (congrArg (fun o : H2Stream => o.headerBlock.length) ho).trans ?_
    exact length_append

theorem exists_longBlock (n : ℕ) :
    ∃ es s, Run.Exec H2.step (fun _ _ => True) (start (clientPreface ++ (firstFragment 1).bytes)) es s ∧
      s.InBlock ∧ n < (s.object 0).headerBlock.length := by
  induction n with
  | zero =>
    have h : (Run.runChecked H2.step (fun _ _ => True) (start (clientPreface ++ (firstFragment 1).bytes))
        [.loop, .write .loop 9, .loop, .loop, .loop]).map (fun s => decide (s.loop = .header ∧
          s.readBuffer = [] ∧ s.expectingContinuation = true ∧ s.lastHeaderStreamId = 1 ∧
          s.streams.lookup 1 = some 0 ∧ 0 < s.objects.length ∧
          0 < (s.object 0).headerBlock.length)) = some true := by
      decide +kernel
    obtain ⟨s, hx, he⟩ := Run.exists_exec h
    obtain ⟨h1, h2, h3, h4, h5, h6, h7⟩ := of_decide_eq_true he
    exact ⟨_, s, hx, ⟨h1, h2, h3, h4, h5, h6⟩, h7⟩
  | succ n ih =>
    obtain ⟨es, s, hx, hb, hn⟩ := ih
    obtain ⟨s', hx', hb', hn'⟩ := hb.more
    exact ⟨_, s', hx.append hx', hb', by omega⟩

/-- A stream that holds more than the body limit and one frame. -/
theorem buffered_exceeds :
    ∃ es s, Run.Exec H2.step (fun _ _ => True) (start (clientPreface ++ (firstFragment 1).bytes)) es s ∧
      16 * 1024 * 1024 + (2 ^ 24 - 1) < s.buffered 0 := by
  obtain ⟨es, s, hx, -, hn⟩ := exists_longBlock (16 * 1024 * 1024 + (2 ^ 24 - 1))
  refine ⟨es, s, hx, ?_⟩
  unfold buffered
  omega

end H2

end Nhttp.Server
