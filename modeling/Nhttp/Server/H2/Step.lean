import Nhttp.Lib.Run
import Nhttp.Server.H2.Handlers

/-!
# Steps of an HTTP/2 connection

* `Event`: what the outside does (a wire access, a handler or a body read returns or throws) or which
  coroutine goes on.
* `H2.step`: the effect of an event; `none` if it cannot happen in this state.

Other coroutines may step in wherever one of them is resumed, so every order the source can show is an
execution of `step`.
-/

namespace Nhttp.Server

open Octets Protocol Http2

inductive Event where
  /-- A wire read returns octets, none at the end of the input. -/
  | recv (bs : Bytes)
  | recvFail
  | loop
  | write (who : Sender) (k : ℕ)
  | writeFail (who : Sender)
  | handlerReturn (t : ℕ) (resp : Response)
  | handlerFail (t : ℕ)
  | bodyRead (t k : ℕ)
  | bodyFail (t : ℕ)
  | resume (t : ℕ)
deriving DecidableEq, Repr

/-- `is_h2_forbidden_header`. -/
def isH2ForbiddenHeader (name : Bytes) : Bool :=
  [ascii "Connection", ascii "Keep-Alive", ascii "Proxy-Connection", ascii "Transfer-Encoding",
    ascii "Upgrade"].any fun f => headerNameEquals name f

/-- The size `write_data_frames` asks the body for. -/
def Writer.want (w : Writer) : ℕ := if 0 ≤ w.remaining then min w.remaining.toNat 16384 else 16384

namespace H2

/-! ## The loop -/

def wanted (s : H2) : ℕ :=
  match s.loop with
  | .preface => clientPreface.length
  | .header => FrameHeader.wireSize
  | .payload fh => fh.length
  | _ => 0

def continueLoop (s : H2) : LoopCont → H2
  | .next => s.nextFrame
  | .dataStream fh ref =>
    s.loopSend ⟨.windowUpdate, 0, 0, writeWindowUpdatePayload fh.length⟩ (.dataConnection fh ref)
  | .dataConnection fh ref => s.finishData fh ref
  | .goaway => { s with loop := .done }

/-- `read_exact` with enough octets in the buffer. -/
def takeBuffer (s : H2) (n : ℕ) : Bytes × H2 :=
  (s.readBuffer.take n, { s with readBuffer := s.readBuffer.drop n })

def loopStep (s : H2) : Option H2 :=
  if s.readBuffer.length < s.wanted then none
  else match s.loop with
    | .preface =>
      let (preface, s) := s.takeBuffer clientPreface.length
      some (if preface = clientPreface then s.loopSend ⟨.settings, 0, 0, []⟩ .next
        else { s with loop := .done })
    | .header =>
      let (header, s) := s.takeBuffer FrameHeader.wireSize
      some { s with loop := if 16 * 1024 * 1024 < (FrameHeader.parse header).length then .done
        else .payload (FrameHeader.parse header) }
    | .payload fh =>
      let (payload, s) := s.takeBuffer fh.length
      some (s.processFrame fh payload)
    | .sending .written k => some (s.continueLoop k)
    | _ => none

/-! ## Wire writes -/

/-- The `send_frame` a coroutine is in. -/
def sendingOf (s : H2) : Sender → Option Sending
  | .loop =>
    match s.loop with
    | .sending st _ => some st
    | _ => none
  | .task t =>
    match s.tasks[t]? with
    | some ⟨_, .sending st _⟩ => some st
    | _ => none

def setSending (s : H2) (st : Sending) : Sender → H2
  | .loop =>
    match s.loop with
    | .sending _ k => { s with loop := .sending st k }
    | _ => s
  | .task t =>
    { s with tasks := s.tasks.modify t fun x =>
        match x.pc with
        | .sending _ k => { x with pc := .sending st k }
        | _ => x }

/-- `k` octets go out; with the last one the lock is released. -/
def writeStep (s : H2) (who : Sender) (k : ℕ) : Option H2 :=
  match s.sendingOf who with
  | some (.writing left) =>
    if left.length < k then none
    else
      let s := { s with wire := s.wire ++ left.take k }
      some (if left.drop k = [] then (s.setSending .written who).unlock
        else s.setSending (.writing (left.drop k)) who)
  | _ => none

/-! ## Response writers -/

/-- The end of `dispatch_stream`, reached normally or through its `catch`. -/
def finishTask (s : H2) (t ref : ℕ) : H2 := (s.eraseStream (s.object ref).id).setTask t .done

/-- A wire write throws: the exception leaves `run`, or is swallowed by `dispatch_stream`. The lock is kept. -/
def failSending (s : H2) (who : Sender) : Option H2 :=
  match s.sendingOf who with
  | some (.writing _) =>
    match who with
    | .loop => some { s with loop := .done }
    | .task t => (s.tasks[t]?).map fun x => s.finishTask t x.ref
  | _ => none

def responseFields (resp : Response) : HeaderList :=
  ⟨ascii ":status", ascii (toString resp.status)⟩ ::
    (resp.headers.filter fun h => !isH2ForbiddenHeader h.name).map
      fun h => ⟨h.name.map toLower, h.value⟩

def writeResponse (s : H2) (t ref : ℕ) (resp : Response) : H2 :=
  -- an upgrade does not exist in HTTP/2
  let resp := if resp.upgradeHandler then makeResponse 501 else resp
  let writer := if resp.contentLength = 0 then none else resp.body.map fun b => ⟨resp.contentLength, b⟩
  s.taskSend t ref
    ⟨.headers, if writer.isSome then FrameFlags.endHeaders else FrameFlags.endHeaders ||| FrameFlags.endStream,
      (s.object ref).id, encode (responseFields resp)⟩ (.headers writer)

def sendEndStream (s : H2) (t ref : ℕ) : H2 :=
  s.taskSend t ref ⟨.data, FrameFlags.endStream, (s.object ref).id, []⟩ .endStream

/-- The head of the loop of `write_data_frames`. -/
def nextChunk (s : H2) (t ref : ℕ) (w : Writer) : H2 :=
  if w.remaining = 0 then s.sendEndStream t ref else s.setTask t (.read w)

def allowed (s : H2) (ref : ℕ) (chunk : Bytes) : ℤ :=
  min (s.object ref).sendWindow (min s.connectionSendWindow (min s.peerMaxFrameSize chunk.length))

def checkWindow (s : H2) (t ref : ℕ) (w : Writer) (got : ℕ) (chunk : Bytes) : H2 :=
  if (s.object ref).sendWindow ≤ 0 ∨ s.connectionSendWindow ≤ 0 then
    (s.modifyObject ref fun o => { o with windowWaiter := some t }).setTask t (.waiting w got chunk)
  else
    let n := (s.allowed ref chunk).toNat
    s.taskSend t ref ⟨.data, 0, (s.object ref).id, chunk.take n⟩ (.data w got n (chunk.drop n))

def deduct (s : H2) (ref n : ℕ) : H2 :=
  { s.modifyObject ref fun o => { o with sendWindow := o.sendWindow - n } with
    connectionSendWindow := s.connectionSendWindow - n
    log := .deducted ref n :: s.log }

/-- What a response writer does after a `send_frame`. -/
def continueTask (s : H2) (t ref : ℕ) : TaskCont → H2
  | .headers none => s.finishTask t ref
  | .headers (some w) => s.nextChunk t ref w
  | .data w got n chunk =>
    let s := s.deduct ref n
    if chunk = [] then
      s.nextChunk t ref { w with remaining := if 0 ≤ w.remaining then w.remaining - got else w.remaining }
    else s.setTask t (.check w got chunk)
  | .endStream => s.finishTask t ref

def resumeStep (s : H2) (t : ℕ) (x : Task) : Option H2 :=
  match x.pc with
  | .answer resp => some (s.writeResponse t x.ref resp)
  | .sending .written k => some (s.continueTask t x.ref k)
  | .check w got chunk => some (s.checkWindow t x.ref w got chunk)
  | _ => none

/-- A body read of `k` octets; none means the end of the body. -/
def bodyStep (s : H2) (t : ℕ) (x : Task) (k : ℕ) : Option H2 :=
  match x.pc with
  | .read w =>
    if w.want < k ∨ w.body.length < k ∨ (k = 0 ∧ w.body ≠ []) then none
    else some (if k = 0 then s.sendEndStream t x.ref
      else s.setTask t (.check { w with body := w.body.drop k } k (w.body.take k)))
  | _ => none

/-! ## Steps -/

def step (s : H2) : Event → Option H2
  | .recv bs =>
    if s.wanted ≤ s.readBuffer.length ∨ 4096 < bs.length then none
    else some (if bs = [] then { s with loop := .done } else { s with readBuffer := s.readBuffer ++ bs })
  | .recvFail => if s.wanted ≤ s.readBuffer.length then none else some { s with loop := .done }
  | .loop => s.loopStep
  | .write who k => s.writeStep who k
  | .writeFail who => s.failSending who
  | .handlerReturn t resp =>
    (s.tasks[t]?).bind fun x => if x.pc = .handler then some (s.setTask t (.answer resp)) else none
  | .handlerFail t =>
    (s.tasks[t]?).bind fun x => if x.pc = .handler then some (s.finishTask t x.ref) else none
  | .bodyRead t k => (s.tasks[t]?).bind fun x => s.bodyStep t x k
  | .bodyFail t =>
    (s.tasks[t]?).bind fun x =>
      match x.pc with
      | .read _ => some (s.finishTask t x.ref)
      | _ => none
  | .resume t => (s.tasks[t]?).bind fun x => s.resumeStep t x

/-- A condition on the frame that the loop is about to process. -/
def OnFrame (s : H2) (P : FrameHeader → Prop) : Event → Prop
  | .loop =>
    match s.loop with
    | .payload fh => P fh
    | _ => True
  | _ => True

instance (s : H2) (P : FrameHeader → Prop) [DecidablePred P] (e : Event) : Decidable (s.OnFrame P e) := by
  unfold OnFrame
  split
  · split <;> infer_instance
  · infer_instance

theorem OnFrame.frame {s : H2} {P : FrameHeader → Prop} {fh : FrameHeader} (h : s.OnFrame P .loop)
    (hl : s.loop = .payload fh) : P fh := by
  simpa only [OnFrame, hl] using h

/-- A connection before its first step: the octets read by the listener are in the buffer. -/
def start (prefaceLeftover : Bytes) : H2 := { readBuffer := prefaceLeftover }

/-! ## A small client -/

/-- A complete request for the path `/`. -/
def requestFrame (id : ℕ) : Frame :=
  ⟨.headers, FrameFlags.endHeaders ||| FrameFlags.endStream, id, [0x84]⟩

/-- The octets of a client that sends such requests on the given streams. -/
def requestsOn (ids : List ℕ) : Bytes :=
  clientPreface ++ (ids.map fun id => (requestFrame id).bytes).flatten

/-- The loop up to the dispatch of `n` such requests. -/
def dispatchEvents (n : ℕ) : List Event := [.loop, .write .loop 9] ++ List.replicate (2 * n + 1) .loop

end H2

end Nhttp.Server
