import Nhttp.Ws.Receive

/-!
# Which frames make a message

* `Delivers`: frames at the end of which `receive` returns a message, by their opcodes and fin bits.
* `receiveLoop_eq_some`, `receiveLoop_of_delivers`: it does so exactly at the end of such frames.
* `Legal`: what RFC 6455 demands of the frames of a client.
* **`receive_legal`**: when the frames of every message are legal.
-/

namespace Nhttp.Ws

open Octets ExactReads Reading List WireFrame

/-! ## Frames that make a message -/

/-- A message is complete at the end of the frames, and not before; `started` if a part has been received. -/
def Delivers : Bool → List RawFrame → Prop
  | _, [] => False
  | started, f :: fs =>
    if f.opcode = opcodePing ∨ f.opcode = opcodePong then Delivers started fs
    else if f.opcode = opcodeText ∨ f.opcode = opcodeBinary ∨ f.opcode = opcodeContinuation ∧ started then
      if f.fin then fs = [] else Delivers true fs
    else False

/-- Part of a message has been received. -/
def Reassembly.started (r : Reassembly) : Bool := r.messageOpcode.isSome

theorem delivers_cons (r : Reassembly) (f : RawFrame) (fs : List RawFrame) :
    Delivers r.started (f :: fs) ↔
      match r.onFrame f with
      | .deliver _ => fs = []
      | .goOn r' => Delivers r'.started fs
      | .pong _ => Delivers r.started fs
      | _ => False := by
  obtain ⟨fin, opcode, payload⟩ := f
  obtain ⟨acc, mop⟩ := r
  rw [Delivers]
  by_cases h1 : opcode = opcodePing ∨ opcode = opcodePong
  · rw [if_pos h1]
    obtain rfl | rfl := h1
    · rfl
    · rfl
  · rw [if_neg h1]
    push Not at h1
    by_cases h2 : opcode = opcodeText ∨ opcode = opcodeBinary
    · obtain rfl | rfl := h2
      · cases fin <;> rfl
      · cases fin <;> rfl
    · by_cases h3 : opcode = opcodeContinuation
      · subst h3
        cases mop with
        | none => rfl
        | some opcode => cases fin <;> rfl
      · rw [if_neg (by tauto)]
        by_cases h4 : opcode = opcodeClose
        · subst h4
          rfl
        · have hact : Reassembly.onFrame ⟨acc, mop⟩ ⟨fin, opcode, payload⟩ =
              .fail 1002 (ascii "unsupported opcode") := by
            rw [Reassembly.onFrame, if_neg h4, if_neg h1.1, if_neg h1.2, if_neg h3, if_neg h2]
          rw [hact]

theorem WireFrame.length_rest_lt {w : WireFrame} {bs rest : Bytes} (h : bs = w.bytes ++ rest) :
    rest.length < bs.length := by
  rw [h, length_append, bytes, length_append, length_cons]
  omega

namespace WsConnection

variable {ω : Type} [Source ω UInt8]

variable {c c' : WsConnection ω} {r : Reassembly}

theorem receiveLoop_eq_some {c c' : WsConnection ω} {r : Reassembly} {m : Message}
    (h : c.receiveLoop r = (some m, c')) :
    ∃ ws : List WireFrame, c.contents = ws.flatMap bytes ++ c'.contents ∧
      Delivers r.started (ws.map raw) := by
  have hc : c.closed = false := by
    by_contra hc
    rw [receiveLoop, if_pos (by simpa using hc)] at h
    cases h
  obtain ⟨w, c₀, -, hcont, -⟩ | ⟨hno, -⟩ := c.readFrame_cases
  · obtain ⟨c₁, hrest, -, he⟩ := receiveLoop_frame hc r hcont
    have hlt : c₁.contents.length < c.contents.length := hrest ▸ length_rest_lt hcont
    rw [h] at he
    -- the frames after this one
    have hcons : ∀ ws : List WireFrame, c₁.contents = ws.flatMap bytes ++ c'.contents →
        c.contents = (w :: ws).flatMap bytes ++ c'.contents := by
      intro ws hws
      rw [hcont, ← hrest, hws, flatMap_cons, append_assoc]
    cases hact : r.onFrame w.raw with
    | closeReply payload =>
      rw [hact] at he
      cases he
    | fail code reason =>
      rw [hact] at he
      cases he
    | pong payload =>
      rw [hact] at he
      obtain ⟨ws, hws, hd⟩ := receiveLoop_eq_some he.symm
      refine ⟨w :: ws, hcons ws hws, ?_⟩
      rw [map_cons, delivers_cons, hact]
      exact hd
    | goOn r' =>
      rw [hact] at he
      obtain ⟨ws, hws, hd⟩ := receiveLoop_eq_some he.symm
      refine ⟨w :: ws, hcons ws hws, ?_⟩
      rw [map_cons, delivers_cons, hact]
      exact hd
    | deliver msg =>
      rw [hact] at he
      cases he
      refine ⟨[w], hcons [] rfl, ?_⟩
      rw [map_cons, delivers_cons, hact]
      rfl
  · obtain ⟨c₁, he, -⟩ := receiveLoop_end hc r hno
    rw [h] at he
    cases he
termination_by c.contents.length

/-- Frames that deliver a message make one, and nothing behind them is read. -/
theorem receiveLoop_of_delivers {ws : List WireFrame} (hc : c.closed = false) {rest : Bytes}
    (hcont : c.contents = ws.flatMap bytes ++ rest) (hd : Delivers r.started (ws.map raw)) :
    ∃ m c', c.receiveLoop r = (some m, c') ∧ c'.contents = rest := by
  induction ws generalizing c r with
  | nil => exact absurd hd id
  | cons w ws ih =>
    rw [flatMap_cons, append_assoc] at hcont
    obtain ⟨c₁, hrest, hq, he⟩ := receiveLoop_frame hc r hcont
    rw [map_cons, delivers_cons] at hd
    have hc1 : c₁.closed = false := hq.closed.trans hc
    cases hact : r.onFrame w.raw with
    | closeReply payload =>
      rw [hact] at hd
      exact absurd hd id
    | fail code reason =>
      rw [hact] at hd
      exact absurd hd id
    | pong payload =>
      rw [hact] at hd he
      obtain ⟨m, c', he', hr⟩ := ih (c := c₁.writeFrame true opcodePong payload) hc1 hrest hd
      exact ⟨m, c', he.trans he', hr⟩
    | goOn r' =>
      rw [hact] at hd he
      obtain ⟨m, c', he', hr⟩ := ih hc1 hrest hd
      exact ⟨m, c', he.trans he', hr⟩
    | deliver msg =>
      rw [hact] at hd he
      obtain rfl : ws = [] := map_eq_nil_iff.mp hd
      exact ⟨msg, c₁, he, hrest⟩

theorem closed_of_receiveLoop {c c' : WsConnection ω} {r : Reassembly}
    (h : c.receiveLoop r = (none, c')) : c'.closed = true := by
  cases hc : c.closed with
  | true =>
    rw [receiveLoop, if_pos hc] at h
    cases h
    exact hc
  | false =>
    obtain ⟨w, c₀, -, hcont, -⟩ | ⟨hno, -⟩ := c.readFrame_cases
    · obtain ⟨c₁, hrest, hq, he⟩ := receiveLoop_frame hc r hcont
      have hlt : c₁.contents.length < c.contents.length := hrest ▸ length_rest_lt hcont
      rw [h] at he
      cases hact : r.onFrame w.raw with
      | closeReply payload =>
        rw [hact] at he
        cases he
        rfl
      | fail code reason =>
        rw [hact, afterFrame, close, hq.closed, hc, if_neg Bool.false_ne_true] at he
        cases he
        rfl
      | pong payload =>
        rw [hact] at he
        exact closed_of_receiveLoop he.symm
      | goOn r' =>
        rw [hact] at he
        exact closed_of_receiveLoop he.symm
      | deliver msg =>
        rw [hact] at he
        cases he
    · obtain ⟨c₁, he, -, hcl⟩ := receiveLoop_end hc r hno
      rw [h] at he
      cases he
      exact hcl
termination_by c.contents.length

end WsConnection

/-! ## Legal frames -/

namespace WireFrame

/-- Close, Ping, Pong and the reserved control frames. -/
def isControl (w : WireFrame) : Bool := 8 ≤ opcodeOf w.b0

def WellFormed (w : WireFrame) : Prop :=
  isMasked w.b1 = true ∧ w.b0 &&& 0x70 = 0 ∧
    (w.isControl = true → finBit w.b0 = true ∧ w.data.length ≤ 125)

def isStart (w : WireFrame) : Bool := opcodeOf w.b0 = opcodeText ∨ opcodeOf w.b0 = opcodeBinary

instance (w : WireFrame) : Decidable w.WellFormed := inferInstanceAs (Decidable (_ ∧ _))

end WireFrame

def Legal : Bool → List WireFrame → Prop
  | _, [] => True
  | unfinished, w :: ws => w.WellFormed ∧ (w.isStart = true → unfinished = false) ∧
      Legal (if w.isControl then unfinished else !finBit w.b0) ws

theorem flatMap_bytes_injective {vs ws : List WireFrame}
    (h : vs.flatMap bytes = ws.flatMap bytes) : vs = ws := by
  induction vs generalizing ws with
  | nil =>
    cases ws with
    | nil => rfl
    | cons w ws => simp [bytes] at h
  | cons v vs ih =>
    cases ws with
    | nil => simp [bytes] at h
    | cons w ws =>
      obtain ⟨rfl, hrest⟩ := bytes_append_inj h
      rw [ih hrest]

/-- **Legal messages.** A call of `receive` closes the connection or has read legal frames only, exactly if the
connection is closed already or the frames that deliver a message are legal. -/
theorem receive_legal {ω : Type} [Source ω UInt8] (c : WsConnection ω) :
    (∀ res c', c.receive = (res, c') → (res = none ∧ c'.closed = true) ∨
      ∃ ws : List WireFrame, c.contents = ws.flatMap WireFrame.bytes ++ c'.contents ∧ Legal false ws) ↔
    c.closed = true ∨ ∀ (ws : List WireFrame) rest, c.contents = ws.flatMap WireFrame.bytes ++ rest →
      Delivers false (ws.map WireFrame.raw) → Legal false ws := by
  cases hc : c.closed with
  | true =>
    refine iff_of_true (fun res c' h => .inl ?_) (.inl rfl)
    rw [WsConnection.receive, WsConnection.receiveLoop, if_pos hc] at h
    cases h
    exact ⟨rfl, hc⟩
  | false =>
    rw [or_iff_right Bool.false_ne_true]
    constructor
    · intro h ws rest hcont hd
      obtain ⟨m, c', he, hrest⟩ := WsConnection.receiveLoop_of_delivers (r := {}) hc hcont hd
      obtain ⟨hn, -⟩ | ⟨vs, hvs, hl⟩ := h _ c' he
      · cases hn
      · rw [hcont, hrest] at hvs
        rw [flatMap_bytes_injective (append_cancel_right hvs)]
        exact hl
    · intro h res c' he
      cases res with
      | none => exact .inl ⟨rfl, WsConnection.closed_of_receiveLoop he⟩
      | some m =>
        obtain ⟨ws, hcont, hd⟩ := WsConnection.receiveLoop_eq_some he
        exact .inr ⟨ws, hcont, h ws _ hcont hd⟩

/-- A text that is not finished, and another one. -/
def restarted : List WireFrame := [oneOctet 0x01 1 2 3 4 0x60, oneOctet 0x81 5 6 7 8 0x67]

/-- The second text is returned and the first one is lost. -/
theorem receive_restarted :
    ∃ c', (⟨Segments.singles (restarted.flatMap WireFrame.bytes), [], false, false, []⟩ :
        WsConnection (Segments UInt8)).receive = (some ⟨.text, ascii "b"⟩, c') ∧ c'.closed = false ∧
      ∀ ws : List WireFrame, restarted.flatMap WireFrame.bytes = ws.flatMap WireFrame.bytes ++ c'.contents →
        ¬Legal false ws := by
  refine ⟨⟨⟨[], by simp⟩, [], false, false, []⟩, by decide +kernel, rfl, fun ws hws hl => ?_⟩
  obtain rfl := flatMap_bytes_injective (hws.trans (append_nil _))
  exact absurd (hl.2.2.2.1 (by decide +kernel)) (by decide +kernel)

end Nhttp.Ws
