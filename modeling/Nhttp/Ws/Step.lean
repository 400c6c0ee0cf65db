import Nhttp.Lib.Run
import Nhttp.Ws.Receive

/-!
# A WebSocket connection used by several coroutines

Every call of `receive`, `send_text`, `send_binary` and `close` is a coroutine of its own. It is
suspended in a wire read or in a wire write, and other coroutines go on meanwhile.

* `Pc`: where a coroutine is suspended; `Next`: what it does when it goes on.
* `WsState.step`: the effect of an event; `none` if it cannot happen in this state.

`log` lists the frames of all calls of `write_frame` in order. The source does not keep it.
-/

namespace Nhttp.Ws

open Octets ExactReads

/-- What follows a call of `write_frame`. -/
inductive Cont where
  | stop
  | close
  /-- The loop of `receive` goes on. -/
  | loop (r : Reassembly)
deriving DecidableEq, Repr

/-- Where a coroutine is. -/
inductive Pc where
  /-- `receive` reads a frame; `p` is the rest of `read_frame`. -/
  | reading (r : Reassembly) (p : Prog UInt8 RawFrame)
  /-- `write_frame` writes the rest of the header and then the rest of the payload. -/
  | writing (head body : Bytes) (k : Cont)
  | done (res : Option Message)

inductive Call where
  | receive
  | sendText (text : Bytes)
  | sendBinary (data : Bytes)
  | close (code : ℕ) (reason : Bytes)
deriving DecidableEq, Repr

inductive Event where
  | call (c : Call)
  /-- A wire read returns octets, none at the end of the input. -/
  | read (t : ℕ) (bs : Bytes)
  | take (t : ℕ)
  | write (t k : ℕ)
  | fail (t : ℕ)
deriving DecidableEq, Repr

/-- What a coroutine does when it goes on. -/
inductive Next where
  | wait (pc : Pc)
  | write (f : RawFrame) (k : Cont)

/-! ## Calls -/

/-- The head of the loop of `receive`. -/
def loopHead (closed : Bool) (r : Reassembly) : Pc := if closed then .done none else .reading r readFrame

/-- `close`. -/
def closeCall (closed : Bool) (code : ℕ) (reason : Bytes) : Next :=
  if closed then .wait (.done none) else .write ⟨true, opcodeClose, closePayload code reason⟩ .close

/-- A call up to its first suspension. -/
def startCall (closed : Bool) : Call → Next
  | .receive => .wait (loopHead closed {})
  | .sendText text => .write ⟨true, opcodeText, text⟩ .stop
  | .sendBinary data => .write ⟨true, opcodeBinary, data⟩ .stop
  | .close code reason => closeCall closed code reason

/-- `receive` after a frame. -/
def afterFrameNext (closed : Bool) (r : Reassembly) (f : RawFrame) : Next :=
  match r.onFrame f with
  | .closeReply payload => .write ⟨true, opcodeClose, payload⟩ .close
  | .pong payload => .write ⟨true, opcodePong, payload⟩ (.loop r)
  | .fail code reason => closeCall closed code reason
  | .goOn r => .wait (loopHead closed r)
  | .deliver msg => .wait (.done (some msg))

/-- `receive` after an exact read. -/
def afterTake (closed : Bool) (r : Reassembly) : Prog UInt8 RawFrame → Next
  | .ret f => afterFrameNext closed r f
  | .need n k => .wait (.reading r (.need n k))

/-- After `write_frame`: where the coroutine is, and `closed_`. -/
def afterWrite (closed : Bool) : Cont → Pc × Bool
  | .stop => (.done none, closed)
  | .close => (.done none, true)
  | .loop r => (loopHead closed r, closed)

/-! ## Steps -/

structure WsState where
  buffer : Bytes := []
  eof : Bool := false
  closed : Bool := false
  wire : Bytes := []
  tasks : List Pc := []
  log : List RawFrame := []

namespace WsState

def setTask (s : WsState) (t : ℕ) (pc : Pc) : WsState := { s with tasks := s.tasks.set t pc }

/-- A coroutine goes on. -/
def enter (s : WsState) (t : ℕ) : Next → WsState
  | .wait pc => s.setTask t pc
  | .write f k =>
    { s.setTask t (.writing (frameHeader f.fin f.opcode f.payload.length) f.payload k) with
      log := s.log ++ [f] }

/-- `fill_more`: the octets are appended, or `receive` ends with the input. -/
def fill (s : WsState) (t : ℕ) (bs : Bytes) : WsState :=
  if bs = [] then { s.setTask t (.done none) with eof := true, closed := true }
  else { s with buffer := s.buffer ++ bs }

/-- The octets `written` go out, and `head` and `body` are left. -/
def wrote (s : WsState) (t : ℕ) (written head body : Bytes) (k : Cont) : WsState :=
  let s := { s with wire := s.wire ++ written }
  if head = [] ∧ body = [] then
    { s.setTask t (afterWrite s.closed k).1 with closed := (afterWrite s.closed k).2 }
  else s.setTask t (.writing head body k)

def step (s : WsState) : Event → Option WsState
  | .call c =>
    some (({ s with tasks := s.tasks ++ [.done none] } : WsState).enter s.tasks.length (startCall s.closed c))
  | .read t bs =>
    match s.tasks[t]? with
    | some (.reading _ (.need n _)) =>
      -- at the end of the input nothing more is read
      if s.buffer.length < n ∧ bs.length ≤ 4096 ∧ (s.eof → bs = []) then some (s.fill t bs) else none
    | _ => none
  | .take t =>
    match s.tasks[t]? with
    | some (.reading r (.need n k)) =>
      if n ≤ s.buffer.length then
        some (({ s with buffer := s.buffer.drop n } : WsState).enter t
          (afterTake s.closed r (k (s.buffer.take n))))
      else none
    | _ => none
  | .write t k =>
    match s.tasks[t]? with
    | some (.writing head body cont) =>
      -- the header and the payload are written by two loops
      if head ≠ [] then
        if k ≤ head.length then some (s.wrote t (head.take k) (head.drop k) body cont) else none
      else if k ≤ body.length then some (s.wrote t (body.take k) [] (body.drop k) cont)
      else none
    | _ => none
  | .fail t =>
    match s.tasks[t]? with
    | some (.reading ..) | some (.writing ..) => some (s.setTask t (.done none))
    | _ => none

def Next.frame : Next → Option RawFrame
  | .wait _ => none
  | .write f _ => some f

/-- The frame that `write_frame` begins in a step. -/
def frameOf (s : WsState) : Event → Option RawFrame
  | .call c => Next.frame (startCall s.closed c)
  | .take t =>
    match s.tasks[t]? with
    | some (.reading r (.need n k)) => Next.frame (afterTake s.closed r (k (s.buffer.take n)))
    | _ => none
  | _ => none

end WsState

end Nhttp.Ws
