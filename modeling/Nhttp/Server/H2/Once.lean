import Nhttp.Server.H2.Dispatch

/-!
# At most one dispatch for a stream id

The handlers do not keep a client from using an id again.

* `Unused`: a HEADERS frame, and a DATA frame with END_STREAM, is for an id that has not been dispatched.
* **`dispatches_le_one`**: in a run all of whose frames are such, every id has at most one dispatch,
  one handler call and one response.
-/

namespace Nhttp.Server

open Octets Protocol Http2 FrameFlags

namespace H2

def asksDispatch (fh : FrameHeader) : Bool :=
  fh.type == .headers || fh.type == .data && has fh.flags endStream

def Unused (s : H2) : Event → Prop := s.OnFrame fun fh => asksDispatch fh = true → s.dispatches fh.streamId = 0

instance (s : H2) (e : Event) : Decidable (s.Unused e) := inferInstanceAs (Decidable (s.OnFrame _ e))

variable {fh : FrameHeader} {s s' : H2} {ref : ℕ} {payload : Bytes}

structure Once (s : H2) : Prop where
  dispatches : ∀ id, s.dispatches id ≤ 1
  block : s.expectingContinuation = true → s.dispatches s.lastHeaderStreamId = 0 ∧
    ∀ ref, (s.lastHeaderStreamId, ref) ∈ s.streams → (s.object ref).endHeaders = false
  data : ∀ fh ref, s.loop.data = some (fh, ref) →
    has fh.flags endStream = true → s.dispatches fh.streamId = 0 ∧
      (s.expectingContinuation = true → fh.streamId = s.lastHeaderStreamId →
        (s.object ref).endHeaders = false)

theorem once_start (b : Bytes) : (start b).Once := by
  refine ⟨fun id => ?_, fun h => ?_, fun fh ref h => ?_⟩
  · exact Nat.zero_le 1
  · cases h
  · cases h

theorem Once.mono (h : s.Once) (hd : s'.dispatches = s.dispatches)
    (he : s'.expectingContinuation = s.expectingContinuation)
    (hl : s'.lastHeaderStreamId = s.lastHeaderStreamId)
    (hs : ∀ e ∈ s'.streams, e ∈ s.streams)
    (ho : ∀ ref, (s'.object ref).endHeaders = (s.object ref).endHeaders)
    (hp : s'.loop.data = none ∨ s'.loop.data = s.loop.data) : s'.Once := by
  refine ⟨fun id => ?_, fun hx => ?_, fun fh ref hx hf => ?_⟩
  · rw [hd]
    exact h.dispatches id
  · rw [hd, hl]
    obtain ⟨h1, h2⟩ := h.block (he ▸ hx)
    exact ⟨h1, fun ref hr => (ho ref).trans (h2 ref (hs _ hr))⟩
  · obtain hp | hp := hp
    · rw [hp] at hx
      cases hx
    · obtain ⟨h1, h2⟩ := h.data fh ref (hp ▸ hx) hf
      rw [hd, hl, he]
      exact ⟨h1, fun hx hi => (ho ref).trans (h2 hx hi)⟩

theorem Once.of_bare (h : s.Once) (hb : s'.bare = s.bare) : s'.Once := by
  have hl : s'.loop.erase = s.loop.erase := congrArg H2.loop hb
  have hs : s'.bare.streams = s.bare.streams := congrArg H2.streams hb
  have hlog : s'.bare.log = s.bare.log := congrArg H2.log hb
  have hobj : s'.bare.objects = s.bare.objects := congrArg H2.objects hb
  have hexp : s'.bare.expectingContinuation = s.bare.expectingContinuation :=
    congrArg H2.expectingContinuation hb
  have hlast : s'.bare.lastHeaderStreamId = s.bare.lastHeaderStreamId :=
    congrArg H2.lastHeaderStreamId hb
  refine h.mono ?_ hexp hlast (fun e he => ?_) (fun ref => ?_) (.inr ?_)
  · funext id
    exact congrArg (List.countP (Action.dispatches id)) hlog
  · exact (hs ▸ he : e ∈ s.bare.streams)
  · exact congrArg (fun l : List H2Stream => (l.getD ref {}).endHeaders) hobj
  · rw [← LoopPc.data_erase, hl, LoopPc.data_erase]

theorem Once.nextFrame (h : s.Once) : s.nextFrame.Once :=
  h.mono rfl rfl rfl (fun _ he => he) (fun _ => rfl) (.inl rfl)

theorem Once.modifyObject (h : s.Once) {f : H2Stream → H2Stream}
    (hf : ∀ o, (f o).endHeaders = o.endHeaders) (ref : ℕ) : (s.modifyObject ref f).Once :=
  h.mono rfl rfl rfl (fun _ he => he) (fun r => object_modifyObject_of_keeps hf s ref r) (.inr rfl)

/-! ## Coroutines -/

theorem Once.taskMove {t : ℕ} {x : Task} (h : s.Once) (hm : TaskMove s t x s') :
    s'.Once := by
  have hs := hm.streams_subset
  obtain ⟨f, streams, c, lo, wa, pc, acts, hf, -, ha, rfl⟩ := hm.effect
  have ho : ∀ o, (f o).endHeaders = o.endHeaders := fun o => by rw [hf o]
  refine h.mono ?_ rfl rfl hs (object_modifyObject_of_keeps ho s x.ref) (.inr rfl)
  funext id
  refine countP_ofTask ha (fun a hof => ?_) s.log
  cases a with
  | dispatched => cases hof
  | _ => rfl

/-! ## The loop -/

theorem Once.loopSend (h : s.Once) (f : Frame) {k : LoopCont}
    (hk : ∀ fh ref, (LoopPc.sending .written k).data = some (fh, ref) →
      has fh.flags endStream = true → s.dispatches fh.streamId = 0 ∧
        (s.expectingContinuation = true → fh.streamId = s.lastHeaderStreamId →
          (s.object ref).endHeaders = false)) : (s.loopSend f k).Once := by
  have hd := (within_loopSend s f k).dispatches
  obtain ⟨lo, wa, st, he⟩ := loopSend_eq s f k
  rw [he] at hd ⊢
  refine ⟨fun id => ?_, fun hx => ?_, fun fh ref hx hf => ?_⟩
  · rw [hd]
    exact h.dispatches id
  · rw [hd]
    exact h.block hx
  · rw [hd]
    refine hk fh ref ?_ hf
    cases k <;> exact hx

theorem Once.dispatchStream (h : s.Once) (hd : s.dispatches (s.object ref).id = 0) (hl : s.loop.data = none)
    (hb : s.expectingContinuation = true → (s.object ref).id ≠ s.lastHeaderStreamId) :
    (s.dispatchStream ref).Once := by
  have hcount := dispatches_dispatchStream s ref
  obtain ⟨f, pc, called, -, hf, -, -, he⟩ := dispatchStream_eq s ref
  have hlast : (s.dispatchStream ref).lastHeaderStreamId = s.lastHeaderStreamId := by rw [he]; rfl
  refine ⟨fun id => ?_, fun hx => ?_, fun fh r hx => ?_⟩
  · rw [hcount]
    split_ifs with hi
    · rw [← hi, hd]
    · exact h.dispatches id
  · have hx' : s.expectingContinuation = true := by rw [he] at hx; exact hx
    obtain ⟨h1, h2⟩ := h.block hx'
    rw [hcount, hlast, if_neg (hb hx')]
    refine ⟨h1, fun r hr => ?_⟩
    rw [he] at hr ⊢
    exact (object_modifyObject_of_keeps hf s ref r).trans (h2 r hr)
  · rw [he] at hx
    exact absurd (hl.symm.trans hx) (by simp)

theorem Once.completeHeaders (h : s.Once) (hd : s.dispatches (s.object ref).id = 0) (hl : s.loop.data = none)
    (hb : s.expectingContinuation = false) : (s.completeHeaders ref).Once := by
  obtain ⟨dec, f, hf, he⟩ := completeHeaders_eq s ref
  -- no header block is in progress, so END_HEADERS of the objects does not matter
  have hm : ({ s.modifyObject ref f with hpackDecoder := dec } : H2).Once :=
    ⟨h.dispatches, fun hx => absurd (hb.symm.trans hx) (by simp),
      fun fh r hx => absurd (hl.symm.trans hx) (by simp)⟩
  obtain he | he := he
  · rw [he]
    exact hm
  · rw [he]
    refine hm.dispatchStream ?_ hl fun hx => absurd (hb.symm.trans hx) (by simp)
    exact (congrArg s.dispatches (object_modifyObject_of_keeps
      (H2Stream.Keeps.of_kept hf).id s ref ref)).trans hd

theorem Once.finishData (h : s.Once) (hr : s.ids[ref]? = some fh.streamId)
    (hd : has fh.flags endStream = true → s.dispatches fh.streamId = 0 ∧
      (s.expectingContinuation = true → fh.streamId = s.lastHeaderStreamId →
        (s.object ref).endHeaders = false)) : (s.finishData fh ref).Once := by
  -- the loop is between frames when the dispatch happens
  have hm : (s.nextFrame.modifyObject ref fun o => { o with endStream := true }).Once :=
    h.nextFrame.modifyObject (by intro _; rfl) ref
  obtain he | ⟨hf, he | ⟨hh, he⟩⟩ := finishData_eq s fh ref
  · rw [he]
    exact h.nextFrame
  · rw [he]
    exact hm
  · obtain ⟨h1, h2⟩ := hd hf
    have hid : ((s.nextFrame.modifyObject ref fun o => { o with endStream := true }).object ref).id =
        fh.streamId :=
      (object_modifyObject_of_keeps (g := H2Stream.id) (by intro _; rfl) s.nextFrame ref ref).trans
        (object_id_of_ids hr)
    have hend : (s.object ref).endHeaders = true :=
      (object_modifyObject_of_keeps (g := H2Stream.endHeaders) (by intro _; rfl) s ref ref).symm.trans hh
    rw [he, nextFrame_dispatchStream]
    refine hm.dispatchStream ?_ rfl fun hx hi => ?_
    · rw [hid]
      exact h1
    · rw [hid] at hi
      exact absurd (hend.symm.trans (h2 hx hi)) (by simp)

theorem Once.handleData (h : s.Once)
    (hd : has fh.flags endStream = true → s.dispatches fh.streamId = 0)
    (he : s.handleData fh payload = some (s', some ref)) :
    s'.Once ∧ (has fh.flags endStream = true →
      s'.dispatches fh.streamId = 0 ∧ (s'.expectingContinuation = true →
        fh.streamId = s'.lastHeaderStreamId → (s'.object ref).endHeaders = false)) := by
  obtain ⟨h', -⟩ | ⟨r, content, h', hl, -, rfl⟩ := handleData_eq_some he
  · cases h'
  · cases h'
    refine ⟨h.modifyObject (by intro _; rfl) ref, fun hf => ⟨hd hf, fun hx hi => ?_⟩⟩
    obtain ⟨l₁, l₂, hmem, -⟩ := List.lookup_eq_some_iff.mp hl
    refine (object_modifyObject_of_keeps (g := H2Stream.endHeaders) (by intro _; rfl) s ref ref).trans ?_
    refine (h.block hx).2 ref ?_
    rw [hmem]
    exact List.mem_append_right _ (hi ▸ List.mem_cons_self)

theorem Once.handleHeaders (h : s.Once)
    (hw : s.Wf) (hl : s.loop.data = none) (hd : s.dispatches fh.streamId = 0)
    (he : s.handleHeaders fh payload = some s') : s'.Once := by
  obtain ⟨-, hx, block, -, rfl⟩ := handleHeaders_eq_some he
  have hcount := (within_openStream hw fh.streamId block
    (has fh.flags endStream)).dispatches
  have hnew := object_openStream_new s fh.streamId block (has fh.flags endStream)
  split_ifs
  · refine Once.completeHeaders ⟨fun id => ?_, fun hx' => ?_, fun fh' r hd' => ?_⟩ ?_ hl hx
    · rw [hcount]
      exact h.dispatches id
    · exact absurd (hx.symm.trans hx') (by simp)
    · exact absurd (hl.symm.trans hd') (by simp)
    · rw [hcount, hnew]
      exact hd
  · refine ⟨fun id => ?_, fun _ => ⟨?_, fun ref hr => ?_⟩, fun fh' r hd' => ?_⟩
    · exact (congrFun hcount id).trans_le (h.dispatches id)
    · exact (congrFun hcount fh.streamId).trans hd
    · obtain hr | hr := List.mem_cons.mp hr
      · cases hr
        exact congrArg H2Stream.endHeaders hnew
      · have hne := List.of_mem_filter hr
        simp at hne
    · exact absurd (hl.symm.trans hd') (by simp)

theorem Once.handleContinuation (h : s.Once)
    (hw : s.Wf) (hl : s.loop.data = none) (he : s.handleContinuation fh payload = some s') :
    s'.Once := by
  obtain ⟨hx, hid, ref, hlk, rfl⟩ := handleContinuation_eq_some he
  have hm : (s.modifyObject ref fun o => { o with headerBlock := o.headerBlock ++ payload }).Once :=
    h.modifyObject (by intro _; rfl) ref
  split_ifs
  · refine Once.completeHeaders ?_ ?_ hl rfl
    · exact ⟨hm.dispatches, fun hx' => (by cases hx'),
        fun fh' r hd' => absurd (hl.symm.trans hd') (by simp)⟩
    · have hobj : ((s.modifyObject ref fun o => { o with headerBlock := o.headerBlock ++ payload }).object
          ref).id = s.lastHeaderStreamId :=
        (object_modifyObject_of_keeps (g := H2Stream.id) (by intro _; rfl) s ref ref).trans
          ((object_id_of_ids (hw.lookup hlk)).trans hid)
      exact (congrArg s.dispatches hobj).trans (h.block hx).1
  · exact hm

theorem Once.wake (h : s.Once) (ref : ℕ) : (s.wake ref).Once := by
  obtain ⟨f, t, g, -, hf, -, he⟩ := wake_eq s ref
  rw [he]
  exact h.mono rfl rfl rfl (fun _ he => he) (object_modifyObject_of_keeps hf s ref) (.inr rfl)

theorem Once.handleWindowUpdate (h : s.Once) (he : s.handleWindowUpdate fh payload = some s') : s'.Once := by
  obtain rfl | ⟨inc, l, rfl⟩ | ⟨ref, inc, -, rfl⟩ := handleWindowUpdate_eq_some he
  · exact h
  · refine foldl_wake_inv (I := Once) (fun s ref h => h.wake ref) l ?_
    refine h.mono ?_ rfl rfl (fun _ he => he) (fun _ => rfl) (.inr rfl)
    exact Within.dispatches (within_credit rfl rfl rfl)
  · refine Once.wake ?_ ref
    refine h.mono ?_ rfl rfl (fun _ he => he) ?_ (.inr rfl)
    · exact Within.dispatches (within_credit (ids_modifyObject (by intro _; rfl) s ref) rfl rfl)
    · exact object_modifyObject_of_keeps (by intro _; rfl) s ref

theorem Once.frameMove (h : s.Once) (hw : s.Wf)
    (hl : s.loop.data = none) (hd : asksDispatch fh = true → s.dispatches fh.streamId = 0)
    (hm : FrameMove s fh payload s') : s'.Once := by
  have hdata : fh.type = .data → has fh.flags endStream = true →
      s.dispatches fh.streamId = 0 := fun ht hf => hd (by simp [asksDispatch, ht, hf])
  cases hm with
  | refuse => exact h.loopSend _ (fun _ _ hd => by cases hd)
  | ignore => exact h.nextFrame
  | settings w m f =>
    have hs : ({ s with peerInitialWindowSize := w, peerMaxFrameSize := m } : H2).Once :=
      h.mono rfl rfl rfl (fun _ he => he) (fun _ => rfl) (.inr rfl)
    exact hs.loopSend f (fun _ _ hd => by cases hd)
  | headers ht he => exact (h.handleHeaders hw hl (hd (by simp [asksDispatch, ht])) he).nextFrame
  | continuation _ he => exact (h.handleContinuation hw hl he).nextFrame
  | data ref f ht he =>
    obtain ⟨hs, hf⟩ := h.handleData (hdata ht) he
    refine hs.loopSend f fun fh' ref' hx => ?_
    cases hx
    exact hf
  | dataEmpty ref ht he =>
    obtain ⟨hs, hf⟩ := h.handleData (hdata ht) he
    exact hs.finishData (hw.handleData he).2 hf
  | windowUpdate he => exact (h.handleWindowUpdate he).nextFrame
  | rstStream =>
    exact h.mono rfl rfl rfl (fun _ he => List.mem_of_mem_filter he) (fun _ => rfl) (.inl rfl)
  | goaway => exact h.mono rfl rfl rfl (fun _ he => he) (fun _ => rfl) (.inl rfl)

theorem Once.loopMove (h : s.Once) (hw : s.Wf) (hc : s.Unused .loop) (hm : LoopMove s s') : s'.Once := by
  have ht : ∀ n, (s.takeBuffer n).2.Once := fun n =>
    h.mono rfl rfl rfl (fun _ he => he) (fun _ => rfl) (.inr rfl)
  cases hm with
  | preface f => exact (ht _).loopSend f (fun _ _ hd => by cases hd)
  | badPreface | header => exact h.mono rfl rfl rfl (fun _ he => he) (fun _ => rfl) (.inl rfl)
  | frame fh hp hf =>
    refine (ht fh.length).frameMove (hw.takeBuffer _) ?_
      (OnFrame.frame hc hp) hf
    exact congrArg LoopPc.data hp
  | sent k hk =>
    cases k with
    | next => exact h.nextFrame
    | dataStream fh ref =>
      refine h.loopSend _ fun fh' ref' hx => ?_
      cases hx
      exact h.data fh ref (by rw [hk]; rfl)
    | dataConnection fh ref =>
      have hd : s.loop.data = some (fh, ref) := by rw [hk]; rfl
      exact h.finishData (hw.loop fh ref hd) (h.data fh ref hd)
    | goaway => exact h.mono rfl rfl rfl (fun _ he => he) (fun _ => rfl) (.inl rfl)

theorem Once.step {e : Event} (h : s.Once) (hw : s.Wf) (hc : s.Unused e)
    (hs : s.step e = some s') : s'.Once := by
  cases move_of_step hs with
  | recv => exact h.mono rfl rfl rfl (fun _ he => he) (fun _ => rfl) (.inr rfl)
  | recvEnd | recvFail | writeFail =>
    exact h.mono rfl rfl rfl (fun _ he => he) (fun _ => rfl) (.inl rfl)
  | loop hm => exact h.loopMove hw hc hm
  | write _ _ hb => exact h.of_bare hb
  | task _ t x _ _ hm => exact h.taskMove hm

/-! ## Runs -/

/-- **One dispatch, one call, one response** for an id, in every run whose frames ask for a dispatch
only of ids without one. -/
theorem dispatches_le_one {b : Bytes} {es : List Event} {s : H2}
    (h : Run.Exec H2.step Unused (start b) es s) (id : ℕ) :
    s.dispatches id ≤ 1 ∧ s.calls id ≤ 1 ∧ s.responses id ≤ 1 := by
  have hi : s.Wf ∧ s.Counted ∧ s.Once := by
    refine h.inv (I := fun s => s.Wf ∧ s.Counted ∧ s.Once) ?_
      ⟨wf_start b, ⟨fun _ => Nat.le_refl _, fun _ => Nat.le_refl _⟩, once_start b⟩
    exact fun s e s' hc hs hi =>
      ⟨hi.1.step hs, hi.2.1.step hi.1 hs, hi.2.2.step hi.1 hc hs⟩
  obtain ⟨-, hcount, honce⟩ := hi
  have hd := honce.dispatches id
  exact ⟨hd, (hcount.calls id).trans hd,
    (Nat.le_add_right _ _).trans ((hcount.responses id).trans hd)⟩

theorem dispatches_le_one_two_streams :
    ∃ es s, Run.Exec H2.step Unused (start (requestsOn [1, 3])) es s ∧ s.dispatches 1 = 1 ∧
      (s.dispatches 3 ≤ 1 ∧ s.calls 3 ≤ 1 ∧ s.responses 3 ≤ 1) := by
  have h : (Run.runChecked H2.step Unused (start (requestsOn [1, 3])) (dispatchEvents 2)).map
      (fun s => s.dispatches 1) = some 1 := by
    decide +kernel
  obtain ⟨s, hx, he⟩ := Run.exists_exec h
  exact ⟨_, s, hx, he, dispatches_le_one hx 3⟩

/-- The same request twice: both HEADERS frames are dispatched, and the handler is called twice. -/
theorem dispatches_two :
    ∃ es s, Run.Exec H2.step (fun _ _ => True) (start (requestsOn [1, 1])) es s ∧
      s.dispatches 1 = 2 ∧ s.calls 1 = 2 ∧ s.responses 1 = 2 := by
  have h : (Run.runChecked H2.step (fun _ _ => True) (start (requestsOn [1, 1]))
      (dispatchEvents 2 ++ [.handlerReturn 0 (makeResponse 200), .resume 0,
        .handlerReturn 1 (makeResponse 200), .resume 1])).map
        (fun s => (s.dispatches 1, s.calls 1, s.responses 1)) = some (2, 2, 2) := by
    decide +kernel
  obtain ⟨s, hx, he⟩ := Run.exists_exec h
  exact ⟨_, s, hx, congrArg Prod.fst he, congrArg (fun p => p.2.1) he, congrArg (fun p => p.2.2) he⟩

end H2

end Nhttp.Server
