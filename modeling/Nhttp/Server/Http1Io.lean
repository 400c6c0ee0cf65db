import Nhttp.Io.RangeStream
import Nhttp.Protocol.ChunkedScan
import Nhttp.Protocol.Header

/-!
# HTTP/1.1 input and output shared by the server and the proxy

* `BufferedWire`: a read-ahead buffer in front of a wire, read as one stream: a connection's `read_buffer_`
  and `wire_`.
* `readHeaders`: the header block; `makeBodyStream`: the framing decision and the body stream.
* `writeMessageBody`: the octets written for a body.
-/

namespace Nhttp.Server

open Octets Reading Protocol Io List

/-! ## Read-ahead buffer and wire -/

/-- `buffered_wire_stream`. -/
structure BufferedWire (ω : Type) where
  leftover : Bytes
  wire : ω
deriving DecidableEq

namespace BufferedWire

/-- The length is not known and seeks fail. -/
instance {ω : Type} : IoStream (BufferedWire ω) where
  getLength _ := -1
  seek b _ _ := (-1, b)

theorem inner_ensurePositioned {ω : Type} (r : RangeStream (BufferedWire ω)) :
    r.ensurePositioned.inner = r.inner := by
  unfold RangeStream.ensurePositioned
  split_ifs <;> rfl

variable {ω : Type} [Source ω UInt8]

def read (b : BufferedWire ω) (n : ℕ) : Bytes × BufferedWire ω :=
  if b.leftover ≠ [] then (b.leftover.take n, { b with leftover := b.leftover.drop n })
  else
    let (got, wire) := Readable.read b.wire n
    (got, { b with wire := wire })

def contents (b : BufferedWire ω) : Bytes := b.leftover ++ Source.contents b.wire

variable (b : BufferedWire ω)

theorem read_append {n : ℕ} (hn : 0 < n) : (b.read n).1 ++ (b.read n).2.contents = b.contents := by
  unfold read
  split_ifs with h
  · simp [contents, ← append_assoc]
  · have h : b.leftover = [] := by simpa using h
    simp only [contents, h, nil_append]
    exact Source.read_append b.wire n hn

theorem contents_read_zero : (b.read 0).2.contents <:+ b.contents := by
  unfold read
  split_ifs with h
  · exact suffix_rfl
  · obtain ⟨xs, hx⟩ := Source.contents_read_zero b.wire
    have h : b.leftover = [] := by simpa using h
    simp only [contents, h, nil_append]
    exact ⟨xs, hx⟩

theorem contents_of_read_nil {n : ℕ} (hn : 0 < n) (h : (b.read n).1 = []) : b.contents = [] := by
  unfold read at h
  split_ifs at h with hl
  · obtain h | h := take_eq_nil_iff.mp h
    · omega
    · exact absurd h hl
  · have hl : b.leftover = [] := by simpa using hl
    rw [contents, hl, nil_append]
    exact Source.contents_of_read_nil b.wire n hn h

theorem length_read_le (n : ℕ) : (b.read n).1.length ≤ n := by
  unfold read
  split_ifs
  · exact length_take_le _ _
  · exact Source.length_read_le b.wire n

instance : Source (BufferedWire ω) UInt8 where
  read := read
  weight b := b.contents.length
  weight_read := length_contents_lt contents (fun b _ => b.read_append) length_read_le
  contents := contents
  read_append b _ := b.read_append
  contents_read_zero := contents_read_zero
  contents_of_read_nil b _ := b.contents_of_read_nil
  length_read_le := length_read_le

/-- `fill_more`: another block from the wire, `none` at its end. -/
def fillMore (b : BufferedWire ω) : Option (BufferedWire ω) :=
  match Readable.read b.wire 4096 with
  | ([], _) => none
  | (c :: got, wire) => some ⟨b.leftover ++ c :: got, wire⟩

theorem fillMore_some {b b' : BufferedWire ω} (h : b.fillMore = some b') :
    b'.contents = b.contents ∧ left b'.wire < left b.wire := by
  have happ := Source.read_append b.wire 4096 (by omega)
  have hlen := left_read b.wire (show 0 < 4096 by omega)
  unfold fillMore at h
  split at h
  · cases h
  · next c got wire he =>
    cases h
    rw [he] at happ hlen
    refine ⟨by rw [contents, contents, append_assoc, happ], ?_⟩
    rw [length_cons] at hlen
    simp only at hlen ⊢
    omega

end BufferedWire

/-! ## Header blocks -/

section headers

variable {ω : Type} [Source ω UInt8]

/-- `read_headers`: header lines up to an empty one. -/
def readHeaders (b : BufferedWire ω) (out : HttpHeaders) (maxHeaderSize : ℕ) :
    Option (HttpHeaders × BufferedWire ω) :=
  match lineAt b.leftover with
  | none =>
    if maxHeaderSize < b.leftover.length then none
    else match _h : b.fillMore with
      | none => none
      | some b => readHeaders b out maxHeaderSize
  | some (line, consumed) =>
    if line = [] then some (out, { b with leftover := b.leftover.drop consumed })
    else match _h : HttpHeader.tryParse b.leftover with
      | .done consumed h =>
        readHeaders { b with leftover := b.leftover.drop consumed } (out.add h.name h.value) maxHeaderSize
      | _ => none
termination_by b.leftover.length + 2 * left b.wire
decreasing_by
  · obtain ⟨h₁, h₂⟩ := BufferedWire.fillMore_some _h
    have := congrArg List.length h₁
    simp only [BufferedWire.contents, length_append] at this
    simp only [left] at h₂ ⊢
    omega
  · have := HttpHeader.tryParse_done _h
    simp only [length_drop]
    omega

theorem BufferedWire.contents_drop_suffix (b : BufferedWire ω) (k : ℕ) :
    Source.contents { b with leftover := b.leftover.drop k } <:+ Source.contents b := by
  refine ⟨b.leftover.take k, ?_⟩
  simp only [Source.contents, BufferedWire.contents, ← append_assoc, take_append_drop]

theorem contents_readHeaders {b b' : BufferedWire ω} {out hs : HttpHeaders} {m : ℕ}
    (h : readHeaders b out m = some (hs, b')) : Source.contents b' <:+ Source.contents b := by
  fun_induction readHeaders b out m with
  | case1 | case2 | case6 => cases h
  | case3 b out _ _ b₁ hf ih =>
    rw [← show Source.contents b₁ = Source.contents b from (BufferedWire.fillMore_some hf).1]
    exact ih h
  | case4 b out k _ =>
    cases h
    exact b.contents_drop_suffix k
  | case5 b out line k _ _ k' hd hp ih => exact (ih h).trans (b.contents_drop_suffix _)

end headers

/-! ## Body streams -/

/-- The digits of a `Content-Length`, in 64-bit arithmetic. -/
def parseContentLength (length : ℤ) : Bytes → Option ℤ
  | [] => some length
  | c :: cs =>
    if isDigit c then parseContentLength (toInt64 (length * 10 + (c.toNat - 0x30 : ℕ))) cs else none

/-- The streams `make_body_stream` returns, over the buffer and wire they refer to. -/
inductive BodyStream (ω : Type) [Source ω UInt8] where
  | chunked (d : ChunkedDecoder (BufferedWire ω))
  | range (r : RangeStream (BufferedWire ω))
  /-- An empty `memory_stream`. -/
  | memory (b : BufferedWire ω)

namespace BodyStream

variable {ω : Type} [Source ω UInt8]

def wire : BodyStream ω → BufferedWire ω
  | .chunked d => d.source
  | .range r => r.inner
  | .memory b => b

def read : BodyStream ω → ℕ → Bytes × BodyStream ω
  | .chunked d, n => ((d.read n).1, .chunked (d.read n).2)
  | .range r, n => ((r.read n).1, .range (r.read n).2)
  | .memory b, _ => ([], .memory b)

def weight : BodyStream ω → ℕ
  | .chunked d => Readable.weight d
  | .range r => left r.inner
  | .memory _ => 0

theorem weight_read : ∀ (s : BodyStream ω) (n : ℕ), (s.read n).1 ≠ [] →
    weight (s.read n).2 < weight s
  | .chunked d, n, h => Readable.weight_read d n h
  | .memory _, _, h => absurd rfl h
  | .range r, n, h => by
    simp only [read, weight, RangeStream.read, BufferedWire.inner_ensurePositioned] at h ⊢
    split_ifs at h ⊢
    · exact absurd rfl h
    · exact Readable.weight_read r.inner _ h

instance : Readable (BodyStream ω) UInt8 where
  read := read
  weight := weight
  weight_read := weight_read

end BodyStream

def chunkedBody {ω : Type} [Source ω UInt8] (b : BufferedWire ω) : BodyStream ω := .chunked { source := b }

/-- `make_body_stream`; `none` is a malformed `Content-Length`. -/
def makeBodyStream {ω : Type} [Source ω UInt8] (b : BufferedWire ω) (headers : HttpHeaders) :
    Option (BodyStream ω) :=
  if ((headers.get (ascii "Transfer-Encoding")).any
      fun te => headerValueContainsToken te (ascii "chunked")) then some (chunkedBody b)
  else match headers.get (ascii "Content-Length") with
    | none => some (.memory b)
    | some cl => (parseContentLength 0 cl).map fun length => .range (RangeStream.new b 0 length)

/-- `make_owned_body_stream`: the same over a buffer and a wire that the stream owns. -/
def makeOwnedBodyStream {ω : Type} [Source ω UInt8] (leftover : Bytes) (wire : ω) (headers : HttpHeaders) :
    Option (BodyStream ω) :=
  makeBodyStream ⟨leftover, wire⟩ headers

/-! ## Writing a body -/

section write

variable {τ : Type} [Readable τ UInt8]

/-- The chunks of `write_message_body`: one per read of the body, then the last chunk. -/
def writeChunks (body : τ) : Bytes :=
  match _h : Readable.read body 4096 with
  | ([], _) => chunkedBodyTerminator
  | (b :: bs, body') => formatChunkHeader (b :: bs).length ++ (b :: bs) ++ chunkDataTerminator ++
      writeChunks body'
termination_by Readable.weight body
decreasing_by
  have := Readable.weight_read body 4096 (by rw [_h]; exact cons_ne_nil _ _)
  rwa [_h] at this

/-- The plain copy of `write_message_body`: it stops early if the body ends early. -/
def writeExactly (body : τ) (remaining : ℕ) : Bytes :=
  if remaining = 0 then []
  else match _h : Readable.read body (min remaining 4096) with
    | ([], _) => []
    | (b :: bs, body') => (b :: bs) ++ writeExactly body' (remaining - (b :: bs).length)
termination_by Readable.weight body
decreasing_by
  have := Readable.weight_read body (min remaining 4096) (by rw [_h]; exact cons_ne_nil _ _)
  rwa [_h] at this

/-- The octets `write_message_body` puts on a wire other than a plain socket. -/
def writeMessageBody (body : τ) (contentLength : ℤ) : Bytes :=
  if contentLength < 0 then writeChunks body else writeExactly body contentLength.toNat

end write

end Nhttp.Server
