import Nhttp.Lib.Reading
import Nhttp.Ws.Frame

/-!
# A WebSocket connection used by one coroutine

* `WsConnection`: the buffer, the flags, the wire to read from and the octets written.
* `run_of_parse`, `run_of_parse_none`: reads do what the program does on all octets that are to come.
* **`readFrame_frameBytes`**: a frame that `write_frame` or a masking client has written is read back.
-/

namespace Nhttp.Ws

open Octets ExactReads Reading

/-- `ws_connection`, with the octets it has written. -/
structure WsConnection (ω : Type) where
  wire : ω
  buffer : Bytes := []
  eof : Bool := false
  closed : Bool := false
  sent : Bytes := []
deriving DecidableEq

namespace WsConnection

variable {ω : Type}

/-- Nothing was written and the connection was not closed in between. -/
structure Quiet (c c' : WsConnection ω) : Prop where
  closed : c'.closed = c.closed
  sent : c'.sent = c.sent

theorem Quiet.refl (c : WsConnection ω) : Quiet c c := ⟨rfl, rfl⟩

variable {c c' : WsConnection ω} {n : ℕ} {rest : Bytes}

theorem Quiet.trans {c₁ : WsConnection ω} (h : Quiet c c₁) (h' : Quiet c₁ c') : Quiet c c' :=
  ⟨h'.closed.trans h.closed, h'.sent.trans h.sent⟩

variable [Source ω UInt8]

/-! ## Reading -/

def fillMore (c : WsConnection ω) : Bool × WsConnection ω :=
  if c.eof then (false, c)
  else match Readable.read c.wire 4096 with
    | ([], wire) => (false, { c with wire := wire, eof := true })
    | (b :: got, wire) => (true, { c with wire := wire, buffer := c.buffer ++ b :: got })

/-- The octets that are to come. -/
def contents (c : WsConnection ω) : Bytes := c.buffer ++ if c.eof then [] else Source.contents c.wire

theorem fillMore_true (h : c.fillMore = (true, c')) :
    c'.contents = c.contents ∧ Quiet c c' ∧ left c'.wire < left c.wire := by
  unfold fillMore at h
  by_cases he : c.eof
  · rw [if_pos he] at h
    cases h
  · rw [if_neg he] at h
    have happ := Source.read_append c.wire 4096 (by omega)
    have hlen := left_read c.wire (show 0 < 4096 by omega)
    split at h
    · cases h
    · next b got wire hr =>
      cases h
      rw [hr] at happ hlen
      rw [List.length_cons] at hlen
      refine ⟨?_, ⟨rfl, rfl⟩, by dsimp only at hlen ⊢; omega⟩
      rw [contents, contents, if_neg he, if_neg he, List.append_assoc, ← happ]

theorem fillMore_false (h : c.fillMore = (false, c')) :
    c.contents = c.buffer ∧ Quiet c c' := by
  unfold fillMore at h
  by_cases he : c.eof
  · rw [if_pos he] at h
    cases h
    rw [contents, if_pos he, List.append_nil]
    exact ⟨rfl, .refl _⟩
  · rw [if_neg he] at h
    split at h
    · next wire hr =>
      cases h
      have hnil := Source.contents_of_read_nil c.wire 4096 (by omega) (by rw [hr])
      rw [contents, if_neg he, hnil, List.append_nil]
      exact ⟨rfl, ⟨rfl, rfl⟩⟩
    · cases h

/-- `read_exact`; nothing if the input ends before. -/
def readExact (c : WsConnection ω) (n : ℕ) : Option Bytes × WsConnection ω :=
  if c.buffer.length < n then
    match _h : c.fillMore with
    | (false, c) => (none, c)
    | (true, c) => readExact c n
  else (some (c.buffer.take n), { c with buffer := c.buffer.drop n })
termination_by left c.wire
decreasing_by exact (fillMore_true _h).2.2

theorem readExact_of_le (c : WsConnection ω) {n : ℕ} (h : n ≤ c.contents.length) :
    ∃ c', c.readExact n = (some (c.contents.take n), c') ∧ c'.contents = c.contents.drop n ∧ Quiet c c' := by
  rw [readExact]
  by_cases hb : c.buffer.length < n
  · rw [if_pos hb]
    split
    · next c₁ hf =>
      rw [(fillMore_false hf).1] at h
      omega
    · next c₁ hf =>
      obtain ⟨hc, hq, hlt⟩ := fillMore_true hf
      obtain ⟨c', he, hd, hq'⟩ := readExact_of_le c₁ (n := n) (by rw [hc]; exact h)
      rw [hc] at he hd
      exact ⟨c', he, hd, hq.trans hq'⟩
  · rw [if_neg hb]
    refine ⟨{ c with buffer := c.buffer.drop n }, ?_, ?_, ⟨rfl, rfl⟩⟩
    · rw [contents, List.take_append_of_le_length (by omega)]
    · rw [contents, contents, List.drop_append_of_le_length (by omega)]
termination_by left c.wire

theorem readExact_of_lt (c : WsConnection ω) {n : ℕ} (h : c.contents.length < n) :
    ∃ c', c.readExact n = (none, c') ∧ Quiet c c' := by
  have hb : c.buffer.length < n := by
    rw [contents, List.length_append] at h
    omega
  rw [readExact, if_pos hb]
  split
  · next c₁ hf => exact ⟨c₁, rfl, (fillMore_false hf).2⟩
  · next c₁ hf =>
    obtain ⟨hc, hq, hlt⟩ := fillMore_true hf
    obtain ⟨c', he, hq'⟩ := readExact_of_lt c₁ (by rw [hc]; exact h)
    exact ⟨c', he, hq.trans hq'⟩
termination_by left c.wire

def run {β : Type} : Prog UInt8 β → WsConnection ω → Option β × WsConnection ω
  | .ret b, c => (some b, c)
  | .need n k, c =>
    match c.readExact n with
    | (none, c) => (none, c)
    | (some bs, c) => run (k bs) c

/-- **A program runs on a connection as on all that is to come.** -/
theorem run_of_parse {β : Type} {p : Prog UInt8 β} {b : β} (h : p.parse c.contents = some (b, rest)) :
    ∃ c', run p c = (some b, c') ∧ c'.contents = rest ∧ Quiet c c' := by
  induction p generalizing c with
  | ret b =>
    cases h
    exact ⟨c, rfl, rfl, .refl c⟩
  | need n k ih =>
    rw [Prog.parse] at h
    split_ifs at h with hn
    obtain ⟨c₁, he, hd, hq⟩ := c.readExact_of_le hn
    rw [← hd] at h
    obtain ⟨c', hr, hrest, hq'⟩ := ih _ h
    refine ⟨c', ?_, hrest, hq.trans hq'⟩
    rw [run, he]
    exact hr

theorem run_of_parse_none {β : Type} {p : Prog UInt8 β}
    (h : p.parse c.contents = none) : ∃ c', run p c = (none, c') ∧ Quiet c c' := by
  induction p generalizing c with
  | ret b => cases h
  | need n k ih =>
    rw [Prog.parse] at h
    by_cases hn : n ≤ c.contents.length
    · rw [if_pos hn] at h
      obtain ⟨c₁, he, hd, hq⟩ := c.readExact_of_le hn
      rw [← hd] at h
      obtain ⟨c', hr, hq'⟩ := ih _ h
      refine ⟨c', ?_, hq.trans hq'⟩
      rw [run, he]
      exact hr
    · obtain ⟨c', he, hq⟩ := c.readExact_of_lt (Nat.lt_of_not_le hn)
      refine ⟨c', ?_, hq⟩
      rw [run, he]

def readFrame (c : WsConnection ω) : Option RawFrame × WsConnection ω := run Ws.readFrame c

theorem readFrame_bytes {w : WireFrame} (h : c.contents = w.bytes ++ rest) :
    ∃ c', c.readFrame = (some w.raw, c') ∧ c'.contents = rest ∧ Quiet c c' :=
  run_of_parse (readFrame_eq_some_iff.mpr ⟨w, rfl, h⟩)

theorem readFrame_cases (c : WsConnection ω) :
    (∃ w : WireFrame, ∃ c', c.readFrame = (some w.raw, c') ∧ c.contents = w.bytes ++ c'.contents ∧
      Quiet c c') ∨
    ((∀ (w : WireFrame) rest, c.contents ≠ w.bytes ++ rest) ∧ ∃ c', c.readFrame = (none, c') ∧ Quiet c c') := by
  cases hp : Ws.readFrame.parse c.contents with
  | none =>
    refine .inr ⟨fun w rest hw => ?_, run_of_parse_none hp⟩
    rw [readFrame_eq_some_iff.mpr ⟨w, rfl, hw⟩] at hp
    cases hp
  | some r =>
    obtain ⟨f, rest⟩ := r
    obtain ⟨w, rfl, hw⟩ := readFrame_eq_some_iff.mp hp
    obtain ⟨c', he, hrest, hq⟩ := run_of_parse hp
    exact .inl ⟨w, c', he, by rw [hrest]; exact hw, hq⟩

/-! ## Writing -/

/-- `write_frame`, all of whose octets are taken by the wire. -/
def writeFrame (c : WsConnection ω) (fin : Bool) (opcode : UInt8) (data : Bytes) : WsConnection ω :=
  { c with sent := c.sent ++ frameBytes ⟨fin, opcode, data⟩ }

@[simp] theorem contents_writeFrame (c : WsConnection ω) (fin : Bool) (opcode : UInt8) (data : Bytes) :
    (c.writeFrame fin opcode data).contents = c.contents := rfl

end WsConnection

/-- **Frames survive the wire.** `read_frame` returns the frame that `write_frame` has written, or that is masked with
any key, and leaves what follows. -/
theorem readFrame_frameBytes {ω : Type} [Source ω UInt8] (fin : Bool) (opcode : UInt8) (payload rest : Bytes)
    (ho : opcode < 16) (hp : payload.length < 2 ^ 63) (c : WsConnection ω) :
    (c.contents = frameBytes ⟨fin, opcode, payload⟩ ++ rest →
      ∃ c', c.readFrame = (some ⟨fin, opcode, payload⟩, c') ∧ c'.contents = rest) ∧
    ∀ key data : Bytes, key.length = 4 → Masks key payload data →
      c.contents = firstOctet fin opcode :: secondOctet true (lengthOctet payload.length) ::
        (lengthExt payload.length ++ (key ++ (data ++ rest))) →
      ∃ c', c.readFrame = (some ⟨fin, opcode, payload⟩, c') ∧ c'.contents = rest := by
  have hlen : payload.length < 2 ^ 64 := by omega
  refine ⟨fun hc => ?_, fun key data hkey hmask hc => ?_⟩
  · rw [frameBytes_eq_encode _ hlen] at hc
    obtain ⟨c', he, hrest, -⟩ := WsConnection.readFrame_bytes hc
    rw [WireFrame.raw_encode false ho rfl hlen rfl] at he
    exact ⟨c', he, hrest⟩
  · rw [← hmask.1] at hlen
    have hw : c.contents = (WireFrame.encode true fin opcode key data hkey hlen).bytes ++ rest := by
      rw [hc, ← hmask.1]
      simp [WireFrame.bytes, WireFrame.encode]
    obtain ⟨c', he, hrest, -⟩ := WsConnection.readFrame_bytes hw
    rw [WireFrame.raw_encode true ho hkey hlen hmask] at he
    exact ⟨c', he, hrest⟩

/-- The single-frame texts of RFC 6455, section 5.7, octet by octet: "Hello" plain and masked. -/
theorem readFrame_frameBytes_hello :
    (∃ c', (⟨Segments.singles [0x81, 0x05, 0x48, 0x65, 0x6c, 0x6c, 0x6f, 0x2a], [], false, false, []⟩ :
      WsConnection (Segments UInt8)).readFrame = (some ⟨true, opcodeText, ascii "Hello"⟩, c') ∧
      c'.contents = [0x2a]) ∧
    ∃ c', (⟨Segments.singles [0x81, 0x85, 0x37, 0xfa, 0x21, 0x3d, 0x7f, 0x9f, 0x4d, 0x51, 0x58, 0x2a], [],
      false, false, []⟩ : WsConnection (Segments UInt8)).readFrame =
        (some ⟨true, opcodeText, ascii "Hello"⟩, c') ∧ c'.contents = [0x2a] :=
  ⟨(readFrame_frameBytes true opcodeText (ascii "Hello") [0x2a] (by decide) (by decide) _).1
      (Segments.contents_singles _),
    (readFrame_frameBytes true opcodeText (ascii "Hello") [0x2a] (by decide) (by decide) _).2
      [0x37, 0xfa, 0x21, 0x3d] [0x7f, 0x9f, 0x4d, 0x51, 0x58] rfl (by decide) (Segments.contents_singles _)⟩

end Nhttp.Ws
