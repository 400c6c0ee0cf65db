import Nhttp.Server.H2.State

/-!
# Frames received on an HTTP/2 connection

The `handle_*` methods of `connection_h2`. A handler that returns `false` in the source returns
`none` here; one that suspends to send frames returns what it sends, and `processFrame` puts the
loop into the corresponding `send_frame`.
-/

namespace Nhttp.Server

open Octets Protocol Http2

/-- The loop over the decoded fields in `finish_header_block`. -/
def H2Stream.applyField (o : H2Stream) (f : HeaderField) : H2Stream :=
  if f.name = ascii ":method" then { o with resource := { o.resource with method := ⟨f.value⟩ } }
  else if f.name = ascii ":authority" then { o with hostname := f.value }
  else if f.name = ascii ":path" then { o with resource := o.resource.setTarget f.value }
  else if f.name = ascii ":scheme" then o
  -- an unknown pseudo-header is ignored
  else if f.name.head? = some 0x3a then o
  else { o with headers := o.headers.add f.name f.value }

namespace H2

def finishHeaderBlock (s : H2) (ref : ℕ) : H2 :=
  let r := s.hpackDecoder.decode (s.object ref).headerBlock []
  let s := { s with hpackDecoder := r.decoder }
  match r.failed with
  | some _ => s.modifyObject ref fun o => { o with malformed := true }
  | none => s.modifyObject ref fun o =>
      let o := r.out.foldl H2Stream.applyField o
      { o with resource := { o.resource with httpMajor := 2, httpMinor := 0 } }

def dispatchStream (s : H2) (ref : ℕ) : H2 :=
  let o := s.object ref
  let s := s.record (.dispatched ref o.id)
  if o.malformed then { s with tasks := s.tasks ++ [⟨ref, .answer (makeResponse 400)⟩] }
  else
    -- the headers are moved out of the stream object
    let s' := s.modifyObject ref fun o => { o with headers := [] }
    if s.hasHandler then
      { s'.record (.called o.id ⟨o.resource, o.headers, o.hostname⟩ o.bodyBuffer) with
        tasks := s.tasks ++ [⟨ref, .handler⟩] }
    else { s' with tasks := s.tasks ++ [⟨ref, .answer (makeResponse 501)⟩] }

def completeHeaders (s : H2) (ref : ℕ) : H2 :=
  let s := (s.finishHeaderBlock ref).modifyObject ref fun o => { o with endHeaders := true }
  if (s.object ref).endStream || (s.object ref).malformed then s.dispatchStream ref else s

def headersFragment (fh : FrameHeader) (payload : Bytes) : Option Bytes :=
  match stripPadding payload (FrameFlags.has fh.flags FrameFlags.padded) with
  | none => none
  | some content =>
    if FrameFlags.has fh.flags FrameFlags.priority then
      if content.length < 5 then none else some (content.drop 5)
    else some content

def openStream (s : H2) (id : ℕ) (block : Bytes) (endStream : Bool) : H2 :=
  { s with
    objects := s.objects ++
      [{ id := id, sendWindow := s.peerInitialWindowSize, headerBlock := block, endStream := endStream }]
    streams := (id, s.objects.length) :: s.streams.filter fun e => e.1 ≠ id
    highestStreamId := max s.highestStreamId id
    log := .opened s.objects.length id s.peerInitialWindowSize :: s.log }

def handleHeaders (s : H2) (fh : FrameHeader) (payload : Bytes) : Option H2 :=
  if fh.streamId = 0 ∨ s.expectingContinuation then none
  else match headersFragment fh payload with
    | none => none
    | some block =>
      let s' := s.openStream fh.streamId block (FrameFlags.has fh.flags FrameFlags.endStream)
      if FrameFlags.has fh.flags FrameFlags.endHeaders then some (s'.completeHeaders s.objects.length)
      else some { s' with expectingContinuation := true, lastHeaderStreamId := fh.streamId }

def handleContinuation (s : H2) (fh : FrameHeader) (payload : Bytes) : Option H2 :=
  if ¬s.expectingContinuation ∨ fh.streamId ≠ s.lastHeaderStreamId then none
  else match s.streams.lookup fh.streamId with
    | none => none
    | some ref =>
      let s := s.modifyObject ref fun o => { o with headerBlock := o.headerBlock ++ payload }
      if FrameFlags.has fh.flags FrameFlags.endHeaders then
        some ({ s with expectingContinuation := false }.completeHeaders ref)
      else some s

def wake (s : H2) (ref : ℕ) : H2 :=
  match (s.object ref).windowWaiter with
  | none => s
  | some t =>
    { s.modifyObject ref (fun o => { o with windowWaiter := none }) with
      tasks := s.tasks.modify t fun x =>
        match x.pc with
        | .waiting w got chunk => { x with pc := .check w got chunk }
        | _ => x }

/-- `handle_window_update` up to the resumptions: the windows, and the stream objects whose slots are emptied then. -/
def creditWindows (s : H2) (fh : FrameHeader) (payload : Bytes) : Option (H2 × List ℕ) :=
  match parseWindowUpdatePayload payload with
  | none => none
  | some increment =>
    if increment = 0 then none
    else if fh.streamId = 0 then
      let s := { s with connectionSendWindow := s.connectionSendWindow + increment }.record
        (.credit none increment)
      some (s, (s.streams.filter fun e => decide (0 < (s.object e.2).sendWindow)).map Prod.snd)
    else match s.streams.lookup fh.streamId with
      | none => some (s, [])
      | some ref =>
        some ((s.modifyObject ref fun o => { o with sendWindow := o.sendWindow + increment }).record
          (.credit (some ref) increment), [ref])

def handleWindowUpdate (s : H2) (fh : FrameHeader) (payload : Bytes) : Option H2 :=
  (s.creditWindows fh payload).map fun c => c.2.foldl wake c.1

def applySetting (s : H2) (p : SettingsParam) : H2 :=
  if p.id = 0x4 then { s with peerInitialWindowSize := p.value }
  else if p.id = 0x5 then
    { s with peerMaxFrameSize := if p.value = 0 then s.peerMaxFrameSize else p.value }
  else s

/-- The flag says whether an acknowledgement is sent. -/
def handleSettings (s : H2) (fh : FrameHeader) (payload : Bytes) : Option (H2 × Bool) :=
  if fh.streamId ≠ 0 then none
  else if FrameFlags.has fh.flags FrameFlags.ack then some (s, false)
  else match parseSettingsPayload payload with
    | none => none
    | some params => some (params.foldl applySetting s, true)

/-- The flag says whether the ping is answered. -/
def handlePing (fh : FrameHeader) (payload : Bytes) : Option Bool :=
  if fh.streamId ≠ 0 ∨ payload.length ≠ 8 then none
  else some (!FrameFlags.has fh.flags FrameFlags.ack)

/-- `handle_data` up to its window updates: the stream object, if the stream is known. -/
def handleData (s : H2) (fh : FrameHeader) (payload : Bytes) : Option (H2 × Option ℕ) :=
  match s.streams.lookup fh.streamId with
  | none => some (s, none)
  | some ref =>
    match stripPadding payload (FrameFlags.has fh.flags FrameFlags.padded) with
    | none => none
    | some content =>
      if s.maxRequestBodySize < (s.object ref).bodyBuffer.length + content.length then none
      else some (s.modifyObject ref fun o => { o with bodyBuffer := o.bodyBuffer ++ content }, some ref)

def nextFrame (s : H2) : H2 := { s with loop := .header }

/-- The rest of `handle_data`, after its window updates. -/
def finishData (s : H2) (fh : FrameHeader) (ref : ℕ) : H2 :=
  if FrameFlags.has fh.flags FrameFlags.endStream then
    let s := s.modifyObject ref fun o => { o with endStream := true }
    if (s.object ref).endHeaders then (s.dispatchStream ref).nextFrame else s.nextFrame
  else s.nextFrame

/-- A refused frame: GOAWAY, then the end of `run`. -/
def refuse (s : H2) : H2 :=
  s.loopSend ⟨.goaway, 0, 0, writeGoawayPayload s.highestStreamId protocolError []⟩ .goaway

/-- The `switch` of `run`. -/
def processFrame (s : H2) (fh : FrameHeader) (payload : Bytes) : H2 :=
  match fh.type with
  | .settings =>
    match s.handleSettings fh payload with
    | none => s.refuse
    | some (s, false) => s.nextFrame
    | some (s, true) => s.loopSend ⟨.settings, FrameFlags.ack, 0, []⟩ .next
  | .headers =>
    match s.handleHeaders fh payload with
    | none => s.refuse
    | some s => s.nextFrame
  | .continuation =>
    match s.handleContinuation fh payload with
    | none => s.refuse
    | some s => s.nextFrame
  | .data =>
    match s.handleData fh payload with
    | none => s.refuse
    | some (s, none) => s.nextFrame
    | some (s, some ref) =>
      if 0 < fh.length then
        s.loopSend ⟨.windowUpdate, 0, fh.streamId, writeWindowUpdatePayload fh.length⟩ (.dataStream fh ref)
      else s.finishData fh ref
  | .windowUpdate =>
    match s.handleWindowUpdate fh payload with
    | none => s.refuse
    | some s => s.nextFrame
  | .rstStream => (s.eraseStream fh.streamId).nextFrame
  | .ping =>
    match handlePing fh payload with
    | none => s.refuse
    | some false => s.nextFrame
    | some true => s.loopSend ⟨.ping, FrameFlags.ack, 0, payload⟩ .next
  | .goaway => { s with loop := .done }
  | .priority | .pushPromise | .other _ => s.nextFrame

end H2

end Nhttp.Server
