import Nhttp.Http2.Frame
import Nhttp.Http2.Hpack
import Nhttp.Server.Message

/-!
# The state of an HTTP/2 connection

`connection_h2` is one loop coroutine (`run`) and one detached coroutine for every dispatched
stream, all on one thread. A coroutine is represented by the place where it is suspended:

* `LoopPc`: `run`;
* `TaskPc`: a `dispatch_stream`;
* `Sending`: a `send_frame`, queued on the writer lock, writing, or written.

Stream objects are shared between the map `streams_` and the coroutines, which refer to them by their
place in `objects`.
-/

namespace Nhttp.Server

open Octets Protocol Http2

/-- `h2_stream`; the waiter is the coroutine suspended on `window_waiter`. -/
structure H2Stream where
  id : ℕ := 0
  resource : HttpResource := {}
  headers : HttpHeaders := []
  hostname : Bytes := []
  headerBlock : Bytes := []
  bodyBuffer : Bytes := []
  endHeaders : Bool := false
  endStream : Bool := false
  malformed : Bool := false
  sendWindow : ℤ := 65535
  windowWaiter : Option ℕ := none
deriving DecidableEq

/-- The coroutine that calls `send_frame`. -/
inductive Sender where
  | loop
  | task (t : ℕ)
deriving DecidableEq, Repr

/-- A `send_frame` that has not returned. -/
inductive Sending where
  | queued (out : Bytes)
  /-- Holds the lock; `left` is still to be written. -/
  | writing (left : Bytes)
  /-- Has released the lock, which may have resumed others before its own caller. -/
  | written
deriving DecidableEq, Repr

/-! ## Response writers -/

/-- The variables of `write_data_frames`; `body` is what the body stream has not delivered yet. -/
structure Writer where
  remaining : ℤ
  body : Bytes
deriving DecidableEq, Repr

/-- What follows a `send_frame` of a response writer. -/
inductive TaskCont where
  /-- The HEADERS frame of the response; the body follows if there is one. -/
  | headers (next : Option Writer)
  /-- A DATA frame of `n` octets from a chunk of `got`, with `chunk` left of it. -/
  | data (w : Writer) (got n : ℕ) (chunk : Bytes)
  | endStream
deriving DecidableEq, Repr

inductive TaskPc where
  | handler
  | answer (resp : Response)
  | sending (st : Sending) (k : TaskCont)
  | read (w : Writer)
  /-- About to check the windows for the rest of a chunk. -/
  | check (w : Writer) (got : ℕ) (chunk : Bytes)
  | waiting (w : Writer) (got : ℕ) (chunk : Bytes)
  | done
deriving DecidableEq, Repr

/-- A `dispatch_stream` coroutine and its stream object. -/
structure Task where
  ref : ℕ
  pc : TaskPc
deriving DecidableEq, Repr

/-! ## The loop -/

/-- What follows a `send_frame` of the loop. -/
inductive LoopCont where
  | next
  /-- The stream's window update of `handle_data`; the connection's follows. -/
  | dataStream (fh : FrameHeader) (ref : ℕ)
  | dataConnection (fh : FrameHeader) (ref : ℕ)
  | goaway
deriving DecidableEq, Repr

inductive LoopPc where
  | preface
  | header
  | payload (fh : FrameHeader)
  | sending (st : Sending) (k : LoopCont)
  | done
deriving DecidableEq, Repr

/-! ## The connection -/

inductive Action where
  /-- A HEADERS frame made the stream object `ref` with this send window. -/
  | opened (ref id : ℕ) (window : ℤ)
  | dispatched (ref id : ℕ)
  | called (id : ℕ) (req : Request) (body : Bytes)
  /-- A call of `send_frame`, for a stream object or by the loop. -/
  | sent (ref : Option ℕ) (f : Frame)
  /-- A window update for a stream object, or for the connection. -/
  | credit (ref : Option ℕ) (increment : ℕ)
  | deducted (ref n : ℕ)
deriving DecidableEq, Repr

/-- `connection_h2`, its coroutines and the log, newest action first. -/
structure H2 where
  readBuffer : Bytes := []
  hasHandler : Bool := true
  hpackDecoder : HpackDecoder := {}
  objects : List H2Stream := []
  streams : List (ℕ × ℕ) := []
  highestStreamId : ℕ := 0
  lastHeaderStreamId : ℕ := 0
  expectingContinuation : Bool := false
  connectionSendWindow : ℤ := 65535
  peerInitialWindowSize : ℕ := 65535
  peerMaxFrameSize : ℕ := 16384
  maxRequestBodySize : ℕ := 16 * 1024 * 1024
  locked : Bool := false
  waiters : List Sender := []
  loop : LoopPc := .preface
  tasks : List Task := []
  wire : Bytes := []
  log : List Action := []
deriving DecidableEq

namespace H2

def object (s : H2) (ref : ℕ) : H2Stream := s.objects.getD ref {}

def modifyObject (s : H2) (ref : ℕ) (f : H2Stream → H2Stream) : H2 :=
  { s with objects := s.objects.modify ref f }

/-- `streams_.erase(id)`. -/
def eraseStream (s : H2) (id : ℕ) : H2 :=
  { s with streams := s.streams.filter fun e => e.1 ≠ id }

def setTask (s : H2) (t : ℕ) (pc : TaskPc) : H2 :=
  { s with tasks := s.tasks.modify t fun x => { x with pc := pc } }

def record (s : H2) (a : Action) : H2 := { s with log := a :: s.log }

/-! ## The writer lock -/

/-- `write_lock_.lock()` at the start of a `send_frame`. -/
def acquire (s : H2) (who : Sender) (out : Bytes) : H2 × Sending :=
  if s.locked then ({ s with waiters := s.waiters ++ [who] }, .queued out)
  else ({ s with locked := true }, .writing out)

/-- A queued `send_frame` gets the lock. -/
def grant (s : H2) : Sender → H2
  | .loop =>
    match s.loop with
    | .sending (.queued out) k => { s with loop := .sending (.writing out) k }
    | _ => s
  | .task t =>
    { s with tasks := s.tasks.modify t fun x =>
        match x.pc with
        | .sending (.queued out) k => { x with pc := .sending (.writing out) k }
        | _ => x }

/-- `write_lock_.unlock()`. -/
def unlock (s : H2) : H2 :=
  match s.waiters with
  | [] => { s with locked := false }
  | h :: hs => grant { s with waiters := hs } h

/-- `send_frame` called by the loop. -/
def loopSend (s : H2) (f : Frame) (k : LoopCont) : H2 :=
  let (s, st) := (s.record (.sent none f)).acquire .loop f.bytes
  { s with loop := .sending st k }

/-- `send_frame` called by the coroutine `t` for its stream object `ref`. -/
def taskSend (s : H2) (t ref : ℕ) (f : Frame) (k : TaskCont) : H2 :=
  let (s, st) := (s.record (.sent (some ref) f)).acquire (.task t) f.bytes
  s.setTask t (.sending st k)

end H2

end Nhttp.Server
