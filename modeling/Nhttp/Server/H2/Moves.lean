import Nhttp.Server.H2.Basic

/-!
# What a step of an HTTP/2 connection can do

* `TaskMove`, `FrameMove`, `LoopMove`: the steps of a response coroutine, the frames received, and
  the steps of the loop.
* `Move`: all of them; `move_of_step` is the inversion of `step`.
* `H2.Wf`: the map, the coroutines and the loop refer to stream objects under their ids (`Wf.step`).
-/

namespace Nhttp.Server

open Octets Protocol Http2 Lists List Option

namespace H2

/-! ## Steps of response coroutines -/

/-- Everything a step of the coroutine `t`, which is `x`, can do. -/
inductive TaskMove (s : H2) (t : ℕ) (x : Task) : H2 → Prop
  | answer (resp : Response) : x.pc = .handler → TaskMove s t x (s.setTask t (.answer resp))
  | finish : x.pc ≠ .done → TaskMove s t x (s.finishTask t x.ref)
  | respond (resp : Response) : x.pc = .answer resp → TaskMove s t x (s.writeResponse t x.ref resp)
  | start (w : Writer) : x.pc = .sending .written (.headers (some w)) →
      TaskMove s t x (s.nextChunk t x.ref w)
  | read (w w' : Writer) (got : ℕ) (chunk : Bytes) : x.pc = .read w →
      TaskMove s t x (s.setTask t (.check w' got chunk))
  | readEnd (w : Writer) : x.pc = .read w → TaskMove s t x (s.sendEndStream t x.ref)
  | check (w : Writer) (got : ℕ) (chunk : Bytes) : x.pc = .check w got chunk →
      TaskMove s t x (s.checkWindow t x.ref w got chunk)
  | deduct (w : Writer) (got n : ℕ) (chunk : Bytes) :
      x.pc = .sending .written (.data w got n chunk) →
      TaskMove s t x (s.continueTask t x.ref (.data w got n chunk))

variable {s' : H2} {x : Task}

theorem taskMove_of_resumeStep {s : H2} {t : ℕ} (h : s.resumeStep t x = some s') :
    TaskMove s t x s' := by
  unfold resumeStep at h
  cases hp : x.pc with
  | answer resp =>
    rw [hp] at h
    cases h
    exact .respond resp hp
  | check w got chunk =>
    rw [hp] at h
    cases h
    exact .check w got chunk hp
  | sending st k =>
    rw [hp] at h
    cases st with
    | queued out => cases h
    | writing left => cases h
    | written =>
      cases h
      cases k with
      | headers next =>
        cases next with
        | none => exact .finish (by simp [hp])
        | some w => exact .start w hp
      | data w got n chunk => exact .deduct w got n chunk hp
      | endStream => exact .finish (by simp [hp])
  | _ =>
    rw [hp] at h
    cases h

theorem taskMove_of_bodyStep {s : H2} {t k : ℕ} (h : s.bodyStep t x k = some s') :
    TaskMove s t x s' := by
  unfold bodyStep at h
  cases hp : x.pc with
  | read w =>
    rw [hp] at h
    dsimp only at h
    split_ifs at h with hk h0
    · cases h
      exact .readEnd w hp
    · cases h
      exact .read w _ _ _ hp
  | _ =>
    rw [hp] at h
    cases h

theorem TaskMove.pc_ne_done {s : H2} {t : ℕ} (h : TaskMove s t x s') : x.pc ≠ .done := by
  cases h with
  | finish hp => exact hp
  | answer _ hp | respond _ hp | start _ hp | read _ _ _ _ hp | readEnd _ hp | check _ _ _ hp
  | deduct _ _ _ _ hp => simp [hp]

end H2

def LoopPc.data : LoopPc → Option (FrameHeader × ℕ)
  | .sending _ (.dataStream fh ref) | .sending _ (.dataConnection fh ref) => some (fh, ref)
  | _ => none

theorem LoopPc.data_erase (pc : LoopPc) : pc.erase.data = pc.data := by
  cases pc with
  | sending st k => cases k <;> rfl
  | _ => rfl

theorem LoopPc.data_eq_none {pc : LoopPc}
    (h : pc = .header ∨ pc = .done ∨ ∃ bs, pc = .payload (FrameHeader.parse bs)) : pc.data = none := by
  obtain rfl | rfl | ⟨bs, rfl⟩ := h <;> rfl

/-- What a response coroutine for the stream object `ref` with this id does to the log. -/
def Action.ofTask (ref id : ℕ) : Action → Bool
  | .sent (some r) f => r == ref && (f.type == .headers || f.type == .data) && f.streamId == id
  | .deducted r _ => r == ref
  | _ => false

def H2Stream.WindowOnly (f : H2Stream → H2Stream) : Prop :=
  ∀ o, f o = { o with sendWindow := (f o).sendWindow, windowWaiter := (f o).windowWaiter }

theorem H2Stream.WindowOnly.id {f : H2Stream → H2Stream} (h : WindowOnly f) (o : H2Stream) :
    (f o).id = o.id := by
  rw [h o]

namespace H2

/-- Everything a step of the coroutine `t` for the object `ref` changes. -/
def TaskEffect (s : H2) (t ref : ℕ) (s' : H2) : Prop :=
  ∃ f streams c lo wa pc acts, H2Stream.WindowOnly f ∧
    (streams = s.streams ∨ streams = s.streams.filter fun e => e.1 ≠ (s.object ref).id) ∧
    (∀ a ∈ acts, Action.ofTask ref (s.object ref).id a = true) ∧
    s' =
      { s.modifyObject ref f with
        streams := streams
        connectionSendWindow := c
        locked := lo
        waiters := wa
        tasks := s.tasks.modify t fun x => { x with pc := pc }
        log := acts ++ s.log }

section Effect

variable (s : H2) (t ref : ℕ)

theorem modifyObject_id : s.modifyObject ref id = s := by
  simp [modifyObject, modify_id]

theorem taskEffect_setTask (pc : TaskPc) : TaskEffect s t ref (s.setTask t pc) :=
  ⟨id, s.streams, s.connectionSendWindow, s.locked, s.waiters, pc, [], fun _ => rfl, .inl rfl,
    by simp, by rw [modifyObject_id]; rfl⟩

theorem taskEffect_taskSend {f : Frame} (hf : f.type = .headers ∨ f.type = .data)
    (hi : f.streamId = (s.object ref).id) (k : TaskCont) : TaskEffect s t ref (s.taskSend t ref f k) := by
  obtain ⟨lo, wa, st, he⟩ := taskSend_eq s t ref f k
  refine ⟨id, s.streams, s.connectionSendWindow, lo, wa, .sending st k, [.sent (some ref) f],
    fun _ => rfl, .inl rfl, ?_, ?_⟩
  · obtain hf | hf := hf <;> simp [Action.ofTask, hf, hi]
  · rw [he, modifyObject_id]
    rfl

theorem taskEffect_nextChunk (w : Writer) : TaskEffect s t ref (s.nextChunk t ref w) := by
  unfold nextChunk
  split_ifs
  · exact taskEffect_taskSend s t ref (.inr rfl) rfl _
  · exact taskEffect_setTask s t ref _

theorem TaskEffect.of_deduct {n : ℕ} {s s' : H2} {t ref : ℕ} (h : TaskEffect (s.deduct ref n) t ref s') :
    TaskEffect s t ref s' := by
  have ho : ((s.deduct ref n).object ref).id = (s.object ref).id :=
    object_modifyObject_of_keeps (g := H2Stream.id) (by intro _; rfl) s ref ref
  obtain ⟨f, streams, c, lo, wa, pc, acts, hf, hs, ha, rfl⟩ := h
  rw [ho] at hs ha
  refine ⟨fun o => f { o with sendWindow := o.sendWindow - n }, streams, c, lo, wa, pc,
    acts ++ [.deducted ref n], fun o => (hf _), hs, fun a hm => ?_, ?_⟩
  · obtain hm | hm := mem_append.mp hm
    · exact ha a hm
    · rw [mem_singleton.mp hm]
      simp [Action.ofTask]
  · simp [deduct, modifyObject, modify_modify_eq, Function.comp_def]

end Effect

variable {s' : H2} {x : Task}

/-- **Everything a response coroutine can do**, seen from the outside. -/
theorem TaskMove.effect {s : H2} {t : ℕ} (h : TaskMove s t x s') :
    TaskEffect s t x.ref s' := by
  cases h with
  | answer | read => exact taskEffect_setTask s t x.ref _
  | finish =>
    exact ⟨id, s.streams.filter fun e => e.1 ≠ (s.object x.ref).id, s.connectionSendWindow, s.locked,
      s.waiters, .done, [], fun _ => rfl, .inr rfl, by simp,
      by rw [modifyObject_id]; rfl⟩
  | respond => exact taskEffect_taskSend s t x.ref (.inl rfl) rfl _
  | readEnd => exact taskEffect_taskSend s t x.ref (.inr rfl) rfl _
  | start w => exact taskEffect_nextChunk s t x.ref w
  | check w got chunk =>
    unfold checkWindow
    split_ifs
    · exact ⟨fun o => { o with windowWaiter := some t }, s.streams, s.connectionSendWindow, s.locked,
        s.waiters, .waiting w got chunk, [], fun _ => rfl, .inl rfl, by simp, rfl⟩
    · exact taskEffect_taskSend s t x.ref (.inr rfl) rfl _
  | deduct w got n chunk =>
    unfold continueTask
    dsimp only
    by_cases hc : chunk = []
    · rw [if_pos hc]
      exact (taskEffect_nextChunk (s.deduct x.ref n) t x.ref _).of_deduct
    · rw [if_neg hc]
      exact (taskEffect_setTask (s.deduct x.ref n) t x.ref _).of_deduct

theorem TaskMove.streams_subset {s : H2} {t : ℕ} (h : TaskMove s t x s') :
    ∀ e ∈ s'.streams, e ∈ s.streams := by
  obtain ⟨f, streams, c, lo, wa, pc, acts, -, hs, -, rfl⟩ := h.effect
  obtain rfl | rfl := hs
  · exact fun _ he => he
  · exact fun _ he => mem_of_mem_filter he

theorem countP_ofTask {ref id : ℕ} {p : Action → Bool} {acts : List Action}
    (ha : ∀ a ∈ acts, Action.ofTask ref id a = true)
    (hp : ∀ a, Action.ofTask ref id a = true → p a = false) (log : List Action) :
    (acts ++ log).countP p = log.countP p := by
  have hz : acts.countP p = 0 := countP_eq_zero.mpr fun a hm => by simp [hp a (ha a hm)]
  rw [countP_append, hz, Nat.zero_add]

/-- The part of the state that only the loop changes. -/
def input (s : H2) : H2 :=
  { s with
    objects := []
    streams := []
    connectionSendWindow := 0
    locked := false
    waiters := []
    tasks := []
    wire := []
    log := [] }

theorem TaskMove.input_eq {s : H2} {t : ℕ} (h : TaskMove s t x s') :
    s'.input = s.input := by
  obtain ⟨f, streams, c, lo, wa, pc, acts, -, -, -, rfl⟩ := h.effect
  rfl

theorem TaskMove.loop_eq {s : H2} {t : ℕ} (h : TaskMove s t x s') :
    s'.loop = s.loop ∧ s'.readBuffer = s.readBuffer := by
  have hl : s'.input.loop = s.input.loop := congrArg H2.loop h.input_eq
  have hb : s'.input.readBuffer = s.input.readBuffer := congrArg H2.readBuffer h.input_eq
  exact ⟨hl, hb⟩

/-! ## Frames -/

/-- The handlers that return `false`. -/
def refuses (s : H2) (fh : FrameHeader) (payload : Bytes) : Bool :=
  match fh.type with
  | .settings => (s.handleSettings fh payload).isNone
  | .headers => (s.handleHeaders fh payload).isNone
  | .continuation => (s.handleContinuation fh payload).isNone
  | .data => (s.handleData fh payload).isNone
  | .windowUpdate => (s.handleWindowUpdate fh payload).isNone
  | .ping => (handlePing fh payload).isNone
  | _ => false

theorem foldl_applySetting_eq (s : H2) (params : List SettingsParam) :
    ∃ w m, params.foldl applySetting s =
      { s with peerInitialWindowSize := w, peerMaxFrameSize := m } := by
  induction params generalizing s with
  | nil => exact ⟨_, _, rfl⟩
  | cons p params ih =>
    have h : ∃ w m, s.applySetting p = { s with peerInitialWindowSize := w, peerMaxFrameSize := m } := by
      unfold applySetting
      split_ifs <;> exact ⟨_, _, rfl⟩
    obtain ⟨w, m, h⟩ := h
    rw [foldl_cons, h]
    exact ih _

inductive FrameMove (s : H2) (fh : FrameHeader) (payload : Bytes) : H2 → Prop
  | refuse : s.refuses fh payload = true → FrameMove s fh payload s.refuse
  | ignore : fh.type ≠ .headers ∧ fh.type ≠ .continuation →
      (fh.type = .data → s.streams.lookup fh.streamId = none) → FrameMove s fh payload s.nextFrame
  | settings (w m : ℕ) (f : Frame) : f.type = .settings ∨ f.type = .ping →
      fh.type = .settings ∨ fh.type = .ping → FrameMove s fh payload
      (({ s with peerInitialWindowSize := w, peerMaxFrameSize := m } : H2).loopSend f .next)
  | headers {s' : H2} : fh.type = .headers → s.handleHeaders fh payload = some s' →
      FrameMove s fh payload s'.nextFrame
  | continuation {s' : H2} : fh.type = .continuation → s.handleContinuation fh payload = some s' →
      FrameMove s fh payload s'.nextFrame
  | data {s' : H2} (ref : ℕ) (f : Frame) : fh.type = .data →
      s.handleData fh payload = some (s', some ref) → 0 < fh.length →
      f = ⟨.windowUpdate, 0, fh.streamId, writeWindowUpdatePayload fh.length⟩ →
      FrameMove s fh payload (s'.loopSend f (.dataStream fh ref))
  | dataEmpty {s' : H2} (ref : ℕ) : fh.type = .data → s.handleData fh payload = some (s', some ref) →
      fh.length = 0 → FrameMove s fh payload (s'.finishData fh ref)
  | windowUpdate {s' : H2} : s.handleWindowUpdate fh payload = some s' → fh.type = .windowUpdate →
      FrameMove s fh payload s'.nextFrame
  | rstStream : fh.type = .rstStream →
      FrameMove s fh payload (s.eraseStream fh.streamId).nextFrame
  | goaway : fh.type = .goaway → FrameMove s fh payload { s with loop := .done }

theorem frameMove_processFrame (s : H2) (fh : FrameHeader) (payload : Bytes) :
    FrameMove s fh payload (s.processFrame fh payload) := by
  unfold processFrame
  cases ht : fh.type with
  | settings =>
    dsimp only
    unfold handleSettings
    split_ifs with h1 h2
    · exact .refuse (by simp [refuses, ht, handleSettings, h1])
    · exact .ignore (by simp [ht]) (by simp [ht])
    · cases hp : parseSettingsPayload payload with
      | none => exact .refuse (by simp [refuses, ht, handleSettings, h1, h2, hp])
      | some params =>
        obtain ⟨w, m, h⟩ := foldl_applySetting_eq s params
        dsimp only
        rw [h]
        exact .settings w m _ (.inl rfl) (.inl ht)
  | headers =>
    cases h : s.handleHeaders fh payload with
    | none => exact .refuse (by simp [refuses, ht, h])
    | some s' => exact .headers ht h
  | continuation =>
    cases h : s.handleContinuation fh payload with
    | none => exact .refuse (by simp [refuses, ht, h])
    | some s' => exact .continuation ht h
  | data =>
    cases h : s.handleData fh payload with
    | none => exact .refuse (by simp [refuses, ht, h])
    | some r =>
      obtain ⟨s', _ | ref⟩ := r
      · obtain ⟨-, hl, rfl⟩ | ⟨_, _, h, _⟩ := handleData_eq_some h
        · exact .ignore (by simp [ht]) fun _ => hl
        · cases h
      · dsimp only
        split_ifs with hl
        · exact .data ref _ ht h hl rfl
        · exact .dataEmpty ref ht h (by omega)
  | windowUpdate =>
    cases h : s.handleWindowUpdate fh payload with
    | none => exact .refuse (by simp [refuses, ht, h])
    | some s' => exact .windowUpdate h ht
  | ping =>
    cases h : handlePing fh payload with
    | none => exact .refuse (by simp [refuses, ht, h])
    | some b =>
      cases b with
      | false => exact .ignore (by simp [ht]) (by simp [ht])
      | true => exact .settings s.peerInitialWindowSize s.peerMaxFrameSize _ (.inr rfl) (.inr ht)
  | rstStream => exact .rstStream ht
  | goaway => exact .goaway ht
  | _ => exact .ignore (by simp [ht]) (by simp [ht])

/-! ## The loop -/

inductive LoopMove (s : H2) : H2 → Prop
  | preface (f : Frame) : s.loop = .preface →
      s.readBuffer.take clientPreface.length = clientPreface → f.type = .settings →
      LoopMove s ((s.takeBuffer clientPreface.length).2.loopSend f .next)
  | badPreface : s.loop = .preface → s.readBuffer.take clientPreface.length ≠ clientPreface →
      LoopMove s { (s.takeBuffer clientPreface.length).2 with loop := .done }
  | header : s.loop = .header →
      LoopMove s { (s.takeBuffer FrameHeader.wireSize).2 with
        loop := .payload (FrameHeader.parse (s.takeBuffer FrameHeader.wireSize).1) }
  | frame {s' : H2} (fh : FrameHeader) : s.loop = .payload fh →
      FrameMove (s.takeBuffer fh.length).2 fh (s.takeBuffer fh.length).1 s' → LoopMove s s'
  | sent (k : LoopCont) : s.loop = .sending .written k → LoopMove s (s.continueLoop k)

theorem step_payload_iff {s : H2} {fh : FrameHeader} (hl : s.loop = .payload fh) :
    s.step .loop = some s' ↔ fh.length ≤ s.readBuffer.length ∧
      s' = (s.takeBuffer fh.length).2.processFrame fh (s.takeBuffer fh.length).1 := by
  simp only [H2.step, loopStep, wanted, hl]
  by_cases hlt : s.readBuffer.length < fh.length
  · simp [hlt]
  · rw [if_neg hlt, some_inj]
    exact ⟨fun h => ⟨Nat.le_of_not_lt hlt, h.symm⟩, fun h => h.2.symm⟩

theorem loopMove_of_loopStep {s : H2} (h : s.loopStep = some s') : LoopMove s s' := by
  unfold loopStep at h
  split_ifs at h
  cases hl : s.loop with
  | preface =>
    rw [hl] at h
    dsimp only at h
    split_ifs at h with hp
    · cases h
      exact .preface _ hl hp rfl
    · cases h
      exact .badPreface hl hp
  | header =>
    rw [hl] at h
    dsimp only at h
    rw [if_neg (by have := FrameHeader.length_parse_lt (s.takeBuffer FrameHeader.wireSize).1; omega)]
      at h
    cases h
    exact .header hl
  | payload fh =>
    rw [hl] at h
    cases h
    exact .frame fh hl (frameMove_processFrame _ _ _)
  | sending st k =>
    rw [hl] at h
    cases st with
    | written =>
      cases h
      exact .sent k hl
    | _ => cases h
  | done =>
    rw [hl] at h
    cases h

/-! ## Phases of a loop step -/

inductive Begin (s : H2) (fh : FrameHeader) : Option (ℕ × ℕ) → H2 → Prop
  | pass : Begin s fh none s
  | settings (w m : ℕ) : fh.type = .settings ∨ fh.type = .ping →
      Begin s fh none { s with peerInitialWindowSize := w, peerMaxFrameSize := m }
  | opened (block : Bytes) (endStream : Bool) : fh.type = .headers → fh.streamId ≠ 0 →
      Begin s fh (some (s.objects.length, fh.streamId)) (s.openStream fh.streamId block endStream)
  | fragment (ref : ℕ) (payload : Bytes) : fh.type = .continuation →
      s.streams.lookup fh.streamId = some ref → Begin s fh (some (ref, fh.streamId))
        (s.modifyObject ref fun o => { o with headerBlock := o.headerBlock ++ payload })
  | content (ref : ℕ) (content : Bytes) : fh.type = .data →
      s.streams.lookup fh.streamId = some ref → Begin s fh (some (ref, fh.streamId))
        (s.modifyObject ref fun o => { o with bodyBuffer := o.bodyBuffer ++ content })
  | credit (inc : ℕ) : fh.type = .windowUpdate → Begin s fh none
      (({ s with connectionSendWindow := s.connectionSendWindow + inc } : H2).record (.credit none inc))
  | creditStream (ref inc : ℕ) : fh.type = .windowUpdate →
      s.streams.lookup fh.streamId = some ref → Begin s fh none
        ((s.modifyObject ref fun o => { o with sendWindow := o.sendWindow + inc }).record
          (.credit (some ref) inc))
  | erased : fh.type = .rstStream → Begin s fh none (s.eraseStream fh.streamId)
  | resumed (fh' : FrameHeader) (ref : ℕ) : s.loop.data = some (fh', ref) →
      Begin s fh (some (ref, fh'.streamId)) s

/-- What the loop does next, one thing at a time. -/
inductive Work (fh : FrameHeader) (r : Option (ℕ × ℕ)) : H2 → H2 → Prop
  | refl (s : H2) : Work fh r s s
  | trans {s₁ s₂ s₃ : H2} : Work fh r s₁ s₂ → Work fh r s₂ s₃ → Work fh r s₁ s₃
  | block (s : H2) (dec : HpackDecoder) (ex : Bool) (la : ℕ) :
      fh.type = .headers ∨ fh.type = .continuation → Work fh r s
        { s with hpackDecoder := dec, expectingContinuation := ex, lastHeaderStreamId := la }
  | object (s : H2) {ref id : ℕ} {f : H2Stream → H2Stream} : r = some (ref, id) →
      (∀ o, (f o).kept = o.kept) → Work fh r s (s.modifyObject ref f)
  | dispatched (s : H2) {ref id : ℕ} : r = some (ref, id) → Work fh r s (s.dispatchStream ref)
  | woken (s : H2) (ref : ℕ) : fh.type = .windowUpdate → Work fh r s (s.wake ref)

/-- Both phases together. -/
def Handles (s : H2) (fh : FrameHeader) (r : Option (ℕ × ℕ)) (s' : H2) : Prop :=
  ∃ s₀, Begin s fh r s₀ ∧ Work fh r s₀ s'

inductive Leave (fh : FrameHeader) (r : Option (ℕ × ℕ)) (s : H2) : H2 → Prop
  | go (pc : LoopPc) : pc = .header ∨ pc = .done ∨ (∃ bs, pc = .payload (FrameHeader.parse bs)) →
      Leave fh r s { s with loop := pc }
  | send (f : Frame) (k : LoopCont) : f.type ≠ .headers ∧ f.type ≠ .data →
      (∀ st fh' ref, (LoopPc.sending st k).data = some (fh', ref) →
        r = some (ref, fh'.streamId) ∧ (k = .dataStream fh' ref → fh' = fh)) →
      Leave fh r s (s.loopSend f k)

theorem leave_nextFrame (fh : FrameHeader) (r : Option (ℕ × ℕ)) (s : H2) : Leave fh r s s.nextFrame :=
  .go _ (.inl rfl)

section Phases

variable {s s' : H2} {fh : FrameHeader} {payload : Bytes}

theorem work_completeHeaders (ht : fh.type = .headers ∨ fh.type = .continuation) (s : H2) (ref id : ℕ) :
    Work fh (some (ref, id)) s (s.completeHeaders ref) := by
  obtain ⟨dec, f, hf, he⟩ := completeHeaders_eq s ref
  have hm : Work fh (some (ref, id)) s { s.modifyObject ref f with hpackDecoder := dec } :=
    (Work.object s rfl hf).trans (.block _ dec s.expectingContinuation s.lastHeaderStreamId ht)
  obtain he | he := he
  · rw [he]
    exact hm
  · rw [he]
    exact hm.trans (.dispatched _ rfl)

theorem work_finishData (s : H2) (fh fh' : FrameHeader) (ref id : ℕ) :
    ∃ s₁, Work fh (some (ref, id)) s s₁ ∧ s.finishData fh' ref = s₁.nextFrame := by
  have hm : Work fh (some (ref, id)) s (s.modifyObject ref fun o => { o with endStream := true }) :=
    .object s rfl fun _ => rfl
  obtain he | ⟨-, he | ⟨-, he⟩⟩ := finishData_eq s fh' ref
  · exact ⟨_, .refl s, he⟩
  · exact ⟨_, hm, he⟩
  · exact ⟨_, hm.trans (.dispatched _ rfl), he⟩

theorem loop_finishData (s : H2) (fh : FrameHeader) (ref : ℕ) : (s.finishData fh ref).loop = .header := by
  obtain ⟨s₁, -, he⟩ := work_finishData s fh fh ref 0
  rw [he]
  rfl

theorem handles_handleHeaders (ht : fh.type = .headers) (h : s.handleHeaders fh payload = some s') :
    ∃ r, Handles s fh r s' := by
  obtain ⟨h0, -, block, -, rfl⟩ := handleHeaders_eq_some h
  refine ⟨_, _, .opened block (FrameFlags.has fh.flags FrameFlags.endStream) ht h0, ?_⟩
  split_ifs
  · exact work_completeHeaders (.inl ht) _ _ _
  · exact .block _ s.hpackDecoder true fh.streamId (.inl ht)

theorem handles_handleContinuation (ht : fh.type = .continuation)
    (h : s.handleContinuation fh payload = some s') : ∃ r, Handles s fh r s' := by
  obtain ⟨-, -, ref, hl, rfl⟩ := handleContinuation_eq_some h
  refine ⟨_, _, .fragment ref payload ht hl, ?_⟩
  split_ifs
  · exact (Work.block _ s.hpackDecoder false s.lastHeaderStreamId (.inr ht)).trans
      (work_completeHeaders (.inr ht) _ _ _)
  · exact .refl _

theorem begin_handleData {ref : ℕ} (ht : fh.type = .data)
    (h : s.handleData fh payload = some (s', some ref)) : Begin s fh (some (ref, fh.streamId)) s' := by
  obtain ⟨h', -⟩ | ⟨_, content, h', hl, -, rfl⟩ := handleData_eq_some h
  · cases h'
  · cases h'
    exact .content ref content ht hl

theorem handles_handleWindowUpdate (ht : fh.type = .windowUpdate)
    (h : s.handleWindowUpdate fh payload = some s') : ∃ r, Handles s fh r s' := by
  obtain rfl | ⟨inc, l, rfl⟩ | ⟨ref, inc, hl, rfl⟩ := handleWindowUpdate_eq_some h
  · exact ⟨_, _, .pass, .refl _⟩
  · exact ⟨_, _, .credit inc ht,
      foldl_wake_inv (I := Work fh none _) (fun s ref h => h.trans (.woken s ref ht)) l (.refl _)⟩
  · exact ⟨_, _, .creditStream ref inc ht hl, .woken _ ref ht⟩

theorem FrameMove.phases (hm : FrameMove s fh payload s') :
    ∃ r s₁, Handles s fh r s₁ ∧ Leave fh r s₁ s' := by
  cases hm with
  | refuse =>
    exact ⟨_, _, ⟨_, .pass, .refl s⟩, .send _ .goaway (by simp) (fun _ _ _ hd => by cases hd)⟩
  | ignore => exact ⟨_, _, ⟨_, .pass, .refl s⟩, leave_nextFrame _ _ s⟩
  | settings w m f hf ht =>
    refine ⟨_, _, ⟨_, .settings w m ht, .refl _⟩, .send f .next ?_ (fun _ _ _ hd => by cases hd)⟩
    obtain hf | hf := hf <;> simp [hf]
  | headers ht he =>
    obtain ⟨r, hh⟩ := handles_handleHeaders ht he
    exact ⟨r, _, hh, leave_nextFrame _ r _⟩
  | continuation ht he =>
    obtain ⟨r, hh⟩ := handles_handleContinuation ht he
    exact ⟨r, _, hh, leave_nextFrame _ r _⟩
  | data ref f ht he _ hf =>
    refine ⟨_, _, ⟨_, begin_handleData ht he, .refl _⟩, .send f _ (by simp [hf]) fun _ _ _ hd => ?_⟩
    cases hd
    exact ⟨rfl, fun _ => rfl⟩
  | dataEmpty ref ht he =>
    obtain ⟨s₁, hw, he'⟩ := work_finishData _ fh fh ref fh.streamId
    exact ⟨_, s₁, ⟨_, begin_handleData ht he, hw⟩, he' ▸ leave_nextFrame _ _ s₁⟩
  | windowUpdate he ht =>
    obtain ⟨r, hh⟩ := handles_handleWindowUpdate ht he
    exact ⟨r, _, hh, leave_nextFrame _ r _⟩
  | rstStream ht => exact ⟨_, _, ⟨_, .erased ht, .refl _⟩, leave_nextFrame _ _ _⟩
  | goaway => exact ⟨_, _, ⟨_, .pass, .refl s⟩, .go .done (.inr (.inl rfl))⟩

theorem LoopMove.phases (hm : LoopMove s s') :
    ∃ n fh r s₁,
      (s.loop = .payload fh ∨ fh = ⟨0, .other 0, 0, 0⟩ ∧ ∀ fh', s.loop ≠ .payload fh') ∧
      Handles (s.takeBuffer n).2 fh r s₁ ∧ Leave fh r s₁ s' := by
  have hno : ∀ {n r s₀ s₁}, (∀ fh', s.loop ≠ .payload fh') →
      Begin (s.takeBuffer n).2 ⟨0, .other 0, 0, 0⟩ r s₀ → Work ⟨0, .other 0, 0, 0⟩ r s₀ s₁ →
      Leave ⟨0, .other 0, 0, 0⟩ r s₁ s' → ∃ n fh r s₁,
        (s.loop = .payload fh ∨ fh = ⟨0, .other 0, 0, 0⟩ ∧ ∀ fh', s.loop ≠ .payload fh') ∧
        Handles (s.takeBuffer n).2 fh r s₁ ∧ Leave fh r s₁ s' :=
    fun hp hb hw hl => ⟨_, _, _, _, .inr ⟨rfl, hp⟩, ⟨_, hb, hw⟩, hl⟩
  cases hm with
  | preface f hp _ hf =>
    exact hno (by simp [hp]) .pass (.refl _)
      (.send f .next (by simp [hf]) (fun _ _ _ hd => by cases hd))
  | badPreface hp => exact hno (by simp [hp]) .pass (.refl _) (.go .done (.inr (.inl rfl)))
  | header hp => exact hno (by simp [hp]) .pass (.refl _) (.go _ (.inr (.inr ⟨_, rfl⟩)))
  | frame fh hl hf =>
    obtain ⟨r, s₁, hh, hx⟩ := hf.phases
    exact ⟨_, fh, r, s₁, .inl hl, hh, hx⟩
  | sent k hk =>
    have hp : ∀ fh', s.loop ≠ .payload fh' := by simp [hk]
    cases k with
    | next => exact hno (n := 0) hp .pass (.refl _) (leave_nextFrame _ _ s)
    | dataStream fh ref =>
      refine hno (n := 0) hp (.resumed fh ref (by simp [hk, takeBuffer, LoopPc.data])) (.refl _)
        (.send _ (.dataConnection fh ref) (by simp) fun _ _ _ hd => ?_)
      cases hd
      exact ⟨rfl, fun h => by cases h⟩
    | dataConnection fh ref =>
      obtain ⟨s₁, hw, he⟩ := work_finishData s ⟨0, .other 0, 0, 0⟩ fh ref fh.streamId
      refine hno (n := 0) hp (.resumed fh ref (by simp [hk, takeBuffer, LoopPc.data])) hw ?_
      rw [continueLoop, he]
      exact leave_nextFrame _ _ s₁
    | goaway => exact hno (n := 0) hp .pass (.refl _) (.go .done (.inr (.inl rfl)))

def rest (s : H2) : H2 :=
  { s with
    hpackDecoder := {}
    objects := []
    lastHeaderStreamId := 0
    expectingContinuation := false
    tasks := []
    log := [] }

variable {r : Option (ℕ × ℕ)}

theorem Work.rest_eq (hw : Work fh r s s') : s'.rest = s.rest := by
  induction hw with
  | refl | block | object => rfl
  | trans _ _ h h' => exact h'.trans h
  | @dispatched s ref =>
    obtain ⟨f, pc, called, -, -, -, -, he⟩ := dispatchStream_eq s ref
    rw [he]
    rfl
  | woken s ref =>
    obtain ⟨f, t, g, -, -, -, he⟩ := wake_eq s ref
    rw [he]
    rfl

theorem Work.block_eq (hw : Work fh r s s') (h1 : fh.type ≠ .headers) (h2 : fh.type ≠ .continuation) :
    s'.hpackDecoder = s.hpackDecoder ∧ s'.expectingContinuation = s.expectingContinuation ∧
      s'.lastHeaderStreamId = s.lastHeaderStreamId := by
  induction hw with
  | refl | object => exact ⟨rfl, rfl, rfl⟩
  | trans _ _ h h' => exact ⟨h'.1.trans h.1, h'.2.1.trans h.2.1, h'.2.2.trans h.2.2⟩
  | block _ _ _ _ ht => exact absurd ht (not_or.mpr ⟨h1, h2⟩)
  | @dispatched s ref =>
    obtain ⟨f, pc, called, -, -, -, -, he⟩ := dispatchStream_eq s ref
    rw [he]
    exact ⟨rfl, rfl, rfl⟩
  | woken s ref =>
    obtain ⟨f, t, g, -, -, -, he⟩ := wake_eq s ref
    rw [he]
    exact ⟨rfl, rfl, rfl⟩

theorem Leave.eq (hl : Leave fh r s s') :
    ∃ lo wa pc log, s' = { s with locked := lo, waiters := wa, loop := pc, log := log } := by
  cases hl with
  | go pc => exact ⟨_, _, pc, _, rfl⟩
  | send f k =>
    obtain ⟨lo, wa, st, he⟩ := loopSend_eq s f k
    exact ⟨lo, wa, _, _, he⟩

section Untouched

variable {s₁ : H2} (hh : Handles s fh r s₁) (hl : Leave fh r s₁ s')
include hh hl

theorem readBuffer_of_phases : s'.readBuffer = s.readBuffer := by
  obtain ⟨s₀, hb, hw⟩ := hh
  obtain ⟨lo, wa, pc, log, rfl⟩ := hl.eq
  have hr : s₁.readBuffer = s₀.readBuffer := (congrArg H2.readBuffer hw.rest_eq :)
  exact hr.trans (by cases hb <;> rfl)

theorem frameSize_of_phases (h1 : fh.type ≠ .settings) (h2 : fh.type ≠ .ping) :
    s'.peerMaxFrameSize = s.peerMaxFrameSize := by
  obtain ⟨s₀, hb, hw⟩ := hh
  obtain ⟨lo, wa, pc, log, rfl⟩ := hl.eq
  have hr : s₁.peerMaxFrameSize = s₀.peerMaxFrameSize := (congrArg H2.peerMaxFrameSize hw.rest_eq :)
  refine hr.trans ?_
  cases hb with
  | settings _ _ ht => exact absurd ht (not_or.mpr ⟨h1, h2⟩)
  | _ => rfl

theorem block_of_phases (h1 : fh.type ≠ .headers) (h2 : fh.type ≠ .continuation) :
    s'.hpackDecoder = s.hpackDecoder ∧ s'.expectingContinuation = s.expectingContinuation ∧
      s'.lastHeaderStreamId = s.lastHeaderStreamId := by
  obtain ⟨s₀, hb, hw⟩ := hh
  obtain ⟨lo, wa, pc, log, rfl⟩ := hl.eq
  have hr := hw.block_eq h1 h2
  cases hb <;> exact hr

end Untouched

theorem FrameMove.block_eq (hm : FrameMove s fh payload s') (h1 : fh.type ≠ .headers)
    (h2 : fh.type ≠ .continuation) :
    s'.hpackDecoder = s.hpackDecoder ∧ s'.expectingContinuation = s.expectingContinuation ∧
      s'.lastHeaderStreamId = s.lastHeaderStreamId := by
  obtain ⟨r, s₁, hh, hl⟩ := hm.phases
  exact block_of_phases hh hl h1 h2

theorem LoopMove.block_eq (hm : LoopMove s s') (h : ∀ fh, s.loop ≠ .payload fh) :
    s'.hpackDecoder = s.hpackDecoder ∧ s'.expectingContinuation = s.expectingContinuation ∧
      s'.lastHeaderStreamId = s.lastHeaderStreamId := by
  obtain ⟨n, fh, r, s₁, hp | ⟨rfl, -⟩, hh, hl⟩ := hm.phases
  · exact absurd hp (h fh)
  · exact (block_of_phases hh hl (by simp) (by simp) :)

end Phases

/-! ## Steps -/

end H2

def TaskPc.isWaiting : TaskPc → Bool
  | .waiting _ _ _ => true
  | _ => false

def Event.task : Event → Option ℕ
  | .writeFail (.task t) | .handlerReturn t _ | .handlerFail t | .bodyRead t _ | .bodyFail t | .resume t => some t
  | _ => none

def Event.writeFails : Event → Bool
  | .writeFail _ => true
  | _ => false

namespace H2

variable {s' : H2} {x : Task} {s : H2} {ref : ℕ}

theorem taskMove_of_task {e : Event} {t : ℕ} (ht : e.task = some t) (hs : s.step e = some s') :
    ∃ x, s.tasks[t]? = some x ∧ x.pc.isWaiting = false ∧
      -- the windows are only checked by a coroutine that goes on
      (∀ w got chunk, x.pc = .check w got chunk → e = .resume t) ∧
      (∀ st k, x.pc = .sending st k → st = .written ∨ e.writeFails = true) ∧ TaskMove s t x s' := by
  cases e with
  | writeFail who =>
    cases who with
    | loop => cases ht
    | task i =>
      cases ht
      cases hx : s.tasks[t]? with
      | none => simp [H2.step, failSending, sendingOf, hx] at hs
      | some x =>
        obtain ⟨ref, pc⟩ := x
        cases pc with
        | sending st k =>
          cases st with
          | writing left =>
            simp only [H2.step, failSending, sendingOf, hx, map_some, Option.some.injEq] at hs
            cases hs
            exact ⟨_, rfl, rfl, by simp, fun _ _ _ => .inr rfl, .finish (by simp)⟩
          | _ => simp [H2.step, failSending, sendingOf, hx] at hs
        | _ => simp [H2.step, failSending, sendingOf, hx] at hs
  | handlerReturn i resp =>
    cases ht
    obtain ⟨x, hx, hs⟩ := bind_eq_some_iff.mp hs
    split_ifs at hs with hp
    cases hs
    exact ⟨x, hx, by rw [hp]; rfl, by simp [hp], by simp [hp], .answer resp hp⟩
  | handlerFail i =>
    cases ht
    obtain ⟨x, hx, hs⟩ := bind_eq_some_iff.mp hs
    split_ifs at hs with hp
    cases hs
    exact ⟨x, hx, by rw [hp]; rfl, by simp [hp], by simp [hp], .finish (by simp [hp])⟩
  | bodyRead i k =>
    cases ht
    obtain ⟨x, hx, hs⟩ := bind_eq_some_iff.mp hs
    have hm := taskMove_of_bodyStep hs
    cases hp : x.pc with
    | read => exact ⟨x, hx, by rw [hp]; rfl, by simp [hp], by simp [hp], hm⟩
    | _ => simp [bodyStep, hp] at hs
  | bodyFail i =>
    cases ht
    obtain ⟨x, hx, hs⟩ := bind_eq_some_iff.mp hs
    cases hp : x.pc with
    | read w =>
      rw [hp] at hs
      cases hs
      exact ⟨x, hx, by rw [hp]; rfl, by simp [hp], by simp [hp], .finish (by simp [hp])⟩
    | _ =>
      rw [hp] at hs
      cases hs
  | resume i =>
    cases ht
    obtain ⟨x, hx, hs⟩ := bind_eq_some_iff.mp hs
    refine ⟨x, hx, ?_, fun _ _ _ _ => rfl, fun st k hp => .inl ?_, taskMove_of_resumeStep hs⟩
    · cases hp : x.pc with
      | waiting => simp [resumeStep, hp] at hs
      | _ => rfl
    · cases st with
      | written => rfl
      | _ => simp [resumeStep, hp] at hs
  | _ => cases ht

/-- Everything a step of a connection can do. -/
inductive Move (s : H2) : Event → H2 → Prop
  | recv (bs : Bytes) : s.readBuffer.length < s.wanted → bs ≠ [] →
      Move s (.recv bs) { s with readBuffer := s.readBuffer ++ bs }
  | recvEnd : s.readBuffer.length < s.wanted → Move s (.recv []) { s with loop := .done }
  | recvFail : s.readBuffer.length < s.wanted → Move s .recvFail { s with loop := .done }
  | loop {s' : H2} : LoopMove s s' → Move s .loop s'
  | write {s' : H2} (who : Sender) (k : ℕ) : s'.bare = s.bare → Move s (.write who k) s'
  | writeFail (left : Bytes) (k : LoopCont) : s.loop = .sending (.writing left) k →
      Move s (.writeFail .loop) { s with loop := .done }
  | task {s' : H2} (e : Event) (t : ℕ) (x : Task) : s.tasks[t]? = some x →
      -- the windows are only checked by a coroutine that goes on
      (∀ w got chunk, x.pc = .check w got chunk → e = .resume t) → TaskMove s t x s' → Move s e s'

/-- **Inversion of `step`.** -/
theorem move_of_step {e : Event} (h : s.step e = some s') : Move s e s' := by
  cases e with
  | recv bs =>
    simp only [step] at h
    split_ifs at h with hw hb
    · cases h
      cases hb
      exact .recvEnd (by omega)
    · cases h
      exact .recv bs (by omega) hb
  | recvFail =>
    simp only [step] at h
    split_ifs at h with hw
    cases h
    exact .recvFail (by omega)
  | loop => exact .loop (loopMove_of_loopStep h)
  | write who k => exact .write who k (bare_writeStep h)
  | writeFail who =>
    cases who with
    | loop =>
      simp only [step, failSending] at h
      split at h
      · next left hl =>
        cases h
        cases hp : s.loop with
        | sending st k =>
          simp only [sendingOf, hp, Option.some.injEq] at hl
          exact .writeFail left k (by rw [hp, hl])
        | _ => simp [sendingOf, hp] at hl
      · cases h
    | task t =>
      obtain ⟨x, hx, -, hc, -, hm⟩ := taskMove_of_task rfl h
      exact .task _ t x hx hc hm
  | handlerReturn t | handlerFail t | bodyRead t | bodyFail t | resume t =>
    obtain ⟨x, hx, -, hc, -, hm⟩ := taskMove_of_task rfl h
    exact .task _ t x hx hc hm

/-! ## References -/

structure Wf (s : H2) : Prop where
  streams : ∀ e ∈ s.streams, s.ids[e.2]? = some e.1
  tasks : ∀ ref ∈ s.tasks.map Task.ref, ref < s.ids.length
  loop : ∀ fh ref, s.loop.data = some (fh, ref) → s.ids[ref]? = some fh.streamId

theorem wf_start (b : Bytes) : (start b).Wf := by
  refine ⟨?_, ?_, ?_⟩ <;> simp [start, LoopPc.data]

variable {s' : H2} {k : LoopCont} {id : ℕ} {fh : FrameHeader} {payload : Bytes}

theorem Wf.mono (h : s.Wf) (hi : s'.ids = s.ids) (hs : ∀ e ∈ s'.streams, e ∈ s.streams)
    (ht : s'.tasks.map Task.ref = s.tasks.map Task.ref)
    (hl : s'.loop.data = none ∨ s'.loop.data = s.loop.data) : s'.Wf := by
  refine ⟨fun e he => ?_, fun ref href => ?_, fun fh ref hd => ?_⟩
  · rw [hi]
    exact h.streams e (hs e he)
  · rw [hi]
    rw [ht] at href
    exact h.tasks ref href
  · rw [hi]
    obtain hl | hl := hl
    · rw [hl] at hd
      cases hd
    · exact h.loop fh ref (hl ▸ hd)

theorem Wf.of_bare (h : s.Wf) (hb : s'.bare = s.bare) : s'.Wf := by
  have hl : s'.loop.erase = s.loop.erase := congrArg H2.loop hb
  have ht : s'.tasks.map Task.erase = s.tasks.map Task.erase := congrArg H2.tasks hb
  have hs : s'.bare.streams = s.bare.streams := congrArg H2.streams hb
  have hi : s'.bare.ids = s.bare.ids := congrArg ids hb
  refine h.mono hi (fun e he => hs ▸ he) ?_ (.inr ?_)
  · simpa [Task.erase, Function.comp_def] using congrArg (List.map Task.ref) ht
  · rw [← LoopPc.data_erase, hl, LoopPc.data_erase]

/-! ## Steps keep the references -/

theorem Wf.modifyObject (h : s.Wf) {f : H2Stream → H2Stream} (hf : ∀ o, (f o).id = o.id)
    (ref : ℕ) : (s.modifyObject ref f).Wf :=
  h.mono (ids_modifyObject hf s ref) (fun _ he => he) rfl (.inr rfl)

theorem Wf.eraseStream (h : s.Wf) (id : ℕ) : (s.eraseStream id).Wf :=
  h.mono rfl (fun _ he => mem_of_mem_filter he) rfl (.inr rfl)

theorem Wf.loopSend (h : s.Wf) (f : Frame) (hk : ∀ fh ref, (LoopPc.sending .written k).data = some (fh, ref) →
      s.ids[ref]? = some fh.streamId) : (s.loopSend f k).Wf := by
  obtain ⟨lo, wa, st, he⟩ := loopSend_eq s f k
  rw [he]
  refine ⟨h.streams, h.tasks, fun fh ref hd => hk fh ref ?_⟩
  cases k <;> exact hd

theorem ids_dispatchStream (s : H2) (ref : ℕ) : (s.dispatchStream ref).ids = s.ids := by
  obtain ⟨f, pc, called, hf, -, -, -, he⟩ := dispatchStream_eq s ref
  rw [he]
  exact ids_modifyObject hf.id s ref

theorem ids_wake (s : H2) (ref : ℕ) : (s.wake ref).ids = s.ids := by
  obtain ⟨f, t, g, hf, -, -, he⟩ := wake_eq s ref
  rw [he]
  exact ids_modifyObject hf.id s ref

theorem Wf.dispatchStream (h : s.Wf) (hr : ref < s.ids.length) : (s.dispatchStream ref).Wf := by
  obtain ⟨f, pc, called, hf, -, -, -, he⟩ := dispatchStream_eq s ref
  have hm := h.modifyObject hf.id ref
  rw [he]
  refine ⟨hm.streams, fun r hmem => ?_, hm.loop⟩
  rw [map_append, mem_append] at hmem
  obtain hmem | hmem := hmem
  · exact hm.tasks r hmem
  · rw [map_singleton, mem_singleton] at hmem
    rw [hmem]
    exact lt_of_lt_of_eq hr (congrArg List.length (ids_modifyObject hf.id s ref)).symm

theorem ids_openStream (s : H2) (id : ℕ) (block : Bytes) (endStream : Bool) :
    (s.openStream id block endStream).ids = s.ids ++ [id] := by
  simp [ids, openStream]

theorem object_openStream_new (s : H2) (id : ℕ) (block : Bytes) (endStream : Bool) :
    (s.openStream id block endStream).object s.objects.length =
      { id := id, sendWindow := s.peerInitialWindowSize, headerBlock := block,
        endStream := endStream } := by
  simp [object, openStream]

theorem object_openStream_old (h : ref < s.ids.length) (id : ℕ) (block : Bytes)
    (endStream : Bool) : (s.openStream id block endStream).object ref = s.object ref := by
  rw [length_ids] at h
  simp [object, openStream, getElem?_append_left h]

theorem Wf.openStream (h : s.Wf) (id : ℕ) (block : Bytes) (endStream : Bool) :
    (s.openStream id block endStream).Wf := by
  have hpre : ∀ {r i : ℕ}, s.ids[r]? = some i → (s.ids ++ [id])[r]? = some i := fun {r i} hr => by
    rw [getElem?_append_left (List.getElem?_eq_some_iff.mp hr).1]
    exact hr
  refine ⟨fun e he => ?_, fun ref href => ?_, fun fh ref hd => ?_⟩
  · rw [ids_openStream]
    obtain rfl | he := mem_cons.mp he
    · simp [ids]
    · exact hpre (h.streams e (mem_of_mem_filter he))
  · rw [ids_openStream, length_append]
    exact Nat.lt_add_right _ (h.tasks ref href)
  · rw [ids_openStream]
    exact hpre (h.loop fh ref hd)

theorem Wf.lookup (h : s.Wf) (hl : s.streams.lookup id = some ref) : s.ids[ref]? = some id := by
  obtain ⟨l₁, l₂, he, -⟩ := lookup_eq_some_iff.mp hl
  exact h.streams (id, ref) (by rw [he]; simp)

theorem lt_length_ids (h : s.ids[ref]? = some id) : ref < s.ids.length :=
  (List.getElem?_eq_some_iff.mp h).1

theorem Wf.wake (h : s.Wf) (ref : ℕ) : (s.wake ref).Wf := by
  obtain ⟨f, t, g, hf, -, hg, he⟩ := wake_eq s ref
  rw [he]
  exact h.mono (ids_modifyObject hf.id s ref) (fun _ he => he)
    (map_modify_of_keeps (fun x => (hg x).1) _ _) (.inr rfl)

theorem Wf.handleData (h : s.Wf) (he : s.handleData fh payload = some (s', some ref)) :
    s'.Wf ∧ s'.ids[ref]? = some fh.streamId := by
  obtain ⟨h', -⟩ | ⟨r, content, h', hl, -, rfl⟩ := handleData_eq_some he
  · cases h'
  · cases h'
    refine ⟨h.modifyObject (by intro _; rfl) ref, ?_⟩
    rw [ids_modifyObject (by intro _; rfl)]
    exact h.lookup hl

/-- The stream object that the loop works on has its id. -/
def Refers (s : H2) (r : Option (ℕ × ℕ)) : Prop := ∀ ref id, r = some (ref, id) → s.ids[ref]? = some id

section Phases

variable {s s₀ : H2} {r : Option (ℕ × ℕ)}

theorem Begin.refers (hb : Begin s fh r s₀) (h : s.Wf) : s₀.Refers r := by
  intro ref id hr
  cases hb with
  | opened =>
    cases hr
    simp [ids_openStream, ← length_ids]
  | fragment _ _ _ hl | content _ _ _ hl =>
    cases hr
    rw [ids_modifyObject (by intro _; rfl)]
    exact h.lookup hl
  | resumed fh' ref hd =>
    cases hr
    exact h.loop fh' ref hd
  | _ => cases hr

theorem Work.ids_eq (hw : Work fh r s s') : s'.ids = s.ids := by
  induction hw with
  | refl | block => rfl
  | trans _ _ h h' => exact h'.trans h
  | object s _ hf => exact ids_modifyObject (H2Stream.Keeps.of_kept hf).id s _
  | dispatched s => exact ids_dispatchStream s _
  | woken s ref => exact ids_wake s ref

theorem Refers.work (hr : s.Refers r) (hw : Work fh r s s') : s'.Refers r := by
  unfold Refers
  rw [hw.ids_eq]
  exact hr

theorem Wf.begins (h : s.Wf) (hb : Begin s fh r s₀) : s₀.Wf := by
  cases hb with
  | pass | resumed => exact h
  | settings | credit => exact h.mono rfl (fun _ he => he) rfl (.inr rfl)
  | opened block endStream => exact h.openStream _ block endStream
  | fragment | content => exact h.modifyObject (by intro _; rfl) _
  | creditStream ref inc =>
    exact h.mono (ids_modifyObject (by intro _; rfl) s ref) (fun _ he => he) rfl (.inr rfl)
  | erased => exact h.eraseStream _

theorem Wf.work (h : s.Wf) (hr : s.Refers r) (hw : Work fh r s s') : s'.Wf := by
  induction hw with
  | refl => exact h
  | trans hw _ ih ih' => exact ih' (ih h hr) (hr.work hw)
  | block => exact h.mono rfl (fun _ he => he) rfl (.inr rfl)
  | object s _ hf => exact h.modifyObject (H2Stream.Keeps.of_kept hf).id _
  | dispatched s he => exact h.dispatchStream (lt_length_ids (hr _ _ he))
  | woken s ref => exact h.wake ref

theorem Wf.leave (h : s.Wf) (hr : s.Refers r) (hl : Leave fh r s s') : s'.Wf := by
  cases hl with
  | go pc hpc => exact h.mono rfl (fun _ he => he) rfl (.inl (LoopPc.data_eq_none hpc))
  | send f k _ hk => exact h.loopSend f fun fh ref hd => hr _ _ (hk _ fh ref hd).1

theorem Wf.takeBuffer (h : s.Wf) (n : ℕ) : (s.takeBuffer n).2.Wf :=
  h.mono rfl (fun _ he => he) rfl (.inr rfl)

end Phases

theorem Wf.loopMove (h : s.Wf) (hm : LoopMove s s') : s'.Wf := by
  obtain ⟨n, fh, r, s₁, -, ⟨s₀, hb, hw⟩, hl⟩ := hm.phases
  have hr := hb.refers (h.takeBuffer n)
  exact (((h.takeBuffer n).begins hb).work hr hw).leave (hr.work hw) hl

theorem Wf.taskMove {t : ℕ} {x : Task} (h : s.Wf) (hm : TaskMove s t x s') : s'.Wf := by
  have hs := hm.streams_subset
  obtain ⟨f, streams, c, lo, wa, pc, acts, hf, -, -, rfl⟩ := hm.effect
  exact h.mono (ids_modifyObject hf.id s x.ref) hs (map_modify_of_keeps (by intro _; rfl) _ _) (.inr rfl)

/-- **References stay valid.** -/
theorem Wf.step {e : Event} (h : s.Wf) (hs : s.step e = some s') : s'.Wf := by
  cases move_of_step hs with
  | recv => exact h.mono rfl (fun _ he => he) rfl (.inr rfl)
  | recvEnd | recvFail | writeFail => exact h.mono rfl (fun _ he => he) rfl (.inl rfl)
  | loop hm => exact h.loopMove hm
  | write _ _ hb => exact h.of_bare hb
  | task _ t x _ _ hm => exact h.taskMove hm

end H2

end Nhttp.Server
