import Nhttp.Protocol.ChunkedBody
import Nhttp.Server.Http1Io

/-!
# Written bodies read back

* `writeChunks_eq`: what `write_message_body` emits for a body of unknown length is a well-formed
  chunked body with the body's octets as its data.
* `read_writeMessageBody`: a `ChunkedDecoder` fed with it delivers the body.
-/

namespace Nhttp.Server

open Octets Reading Protocol

variable {σ τ : Type} [Source σ UInt8] [Source τ UInt8]

/-- The chunk `write_message_body` writes for one read of the body. -/
def chunkOf (data : Bytes) (h : data ≠ []) (hlt : data.length < 2 ^ 64) : Chunk where
  digits := hexDigits data.length
  ext := []
  data := data
  isHex := isHex_hexDigits _
  isExtension := isExtension_nil
  size_eq := hexNumber_hexDigits _
  size_pos := List.length_pos_iff.mpr h
  size_lt := hlt

theorem bytes_chunkOf {data : Bytes} (h : data ≠ []) (hlt : data.length < 2 ^ 64) :
    (chunkOf data h hlt).bytes = formatChunkHeader data.length ++ data ++ chunkDataTerminator := by
  have : data.length ≠ 0 := (List.length_pos_iff.mpr h).ne'
  simp [chunkOf, Chunk.bytes, formatChunkHeader, chunkDataTerminator, this]

/-- The body made of `chunks` and the plain last chunk. -/
def plainBody (chunks : List Chunk) : ChunkedBody where
  chunks := chunks
  lastDigits := [0x30]
  lastExt := []
  trailers := []
  last_ne_nil := lastDigit_ne_nil
  last_zero := lastDigit_zero
  last_isExtension := isExtension_nil
  isTrailer := isTrailer_nil

theorem bytes_plainBody_cons (c : Chunk) (chunks : List Chunk) :
    (plainBody (c :: chunks)).bytes = c.bytes ++ (plainBody chunks).bytes := by
  simp [plainBody, ChunkedBody.bytes]

theorem writeChunks_of_yields {ρ : Type} [Readable ρ UInt8] {body : ρ} {xs : Bytes}
    (h : Yields 4096 body xs) :
    ∃ chunks, writeChunks body = (plainBody chunks).bytes ∧ (plainBody chunks).data = xs := by
  fun_induction writeChunks body generalizing xs with
  | case1 body _ hr =>
    obtain ⟨-, hnil, -⟩ := h.read (show 0 < 4096 by omega) le_rfl
    exact ⟨[], rfl, (hnil (by rw [hr])).symm⟩
  | case2 body c cs body' hr ih =>
    obtain ⟨hlen, -, ys, happ, hy⟩ := h.read (show 0 < 4096 by omega) le_rfl
    rw [hr] at hlen happ hy
    obtain ⟨chunks, hw, hd⟩ := ih hy
    have hlt : (c :: cs).length < 2 ^ 64 := lt_of_le_of_lt hlen (by omega)
    refine ⟨chunkOf (c :: cs) (List.cons_ne_nil _ _) hlt :: chunks, ?_, ?_⟩
    · rw [bytes_plainBody_cons, bytes_chunkOf, hw]
    · rw [← happ, ← hd]
      rfl

theorem writeChunks_eq (body : τ) :
    ∃ chunks, writeChunks body = (plainBody chunks).bytes ∧
      (plainBody chunks).data = Source.contents body :=
  writeChunks_of_yields (yields_contents 4096 body)

theorem writeExactly_of_yields {ρ : Type} [Readable ρ UInt8] {body : ρ} {xs : Bytes} {n : ℕ}
    (h : Yields 4096 body xs) : writeExactly body n = xs.take n := by
  fun_induction writeExactly body n generalizing xs with
  | case1 body => rw [List.take_zero]
  | case2 body n h0 _ hr =>
    obtain ⟨-, hnil, -⟩ := h.read (show 0 < min n 4096 by omega) (Nat.min_le_right _ _)
    rw [hnil (by rw [hr]), List.take_nil]
  | case3 body n h0 c cs body' hr ih =>
    obtain ⟨hlen, -, ys, happ, hy⟩ := h.read (show 0 < min n 4096 by omega) (Nat.min_le_right _ _)
    rw [hr] at hlen happ hy
    have hle : (c :: cs).length ≤ n := hlen.trans (Nat.min_le_left _ _)
    rw [ih hy, ← happ, List.take_append, List.take_of_length_le hle]

/-- **Chunked round trip.** Whatever the cuts: what has been delivered is a prefix of the body, a read returns nothing
exactly when all of it has been delivered, and as many reads as the body has octets are enough. -/
theorem read_writeMessageBody (body : τ) {contentLength : ℤ} (hl : contentLength < 0) (s : σ)
    (hs : Source.contents s = writeMessageBody body contentLength) {ns : List ℕ}
    (hns : ∀ n ∈ ns, 0 < n) {n : ℕ} (hn : 0 < n) :
    let r := reads ({ source := s } : ChunkedDecoder σ) ns
    r.1.flatten ++ (r.2.read n).1 <+: Source.contents body ∧
      ((r.2.read n).1 = [] ↔ r.1.flatten = Source.contents body) ∧
      ((Source.contents body).length ≤ ns.length → r.1.flatten = Source.contents body) := by
  intro r
  obtain ⟨chunks, hw, hd⟩ := writeChunks_eq body
  have hbody : Source.contents ({ source := s } : ChunkedDecoder σ) = Source.contents body := by
    have hscan := (plainBody chunks).scan_bytes []
    rw [List.append_nil, ← hw, hd] at hscan
    rw [writeMessageBody, if_pos hl] at hs
    change (scan ([] ++ Source.contents s)).body = _
    rw [List.nil_append, hs, hscan]
  have happ : r.1.flatten ++ Source.contents r.2 = Source.contents body := by
    rw [← hbody]
    exact reads_append _ hns
  have hall : Source.contents r.2 = [] ↔ r.1.flatten = Source.contents body := by
    rw [← happ]
    constructor
    · intro h; rw [h, List.append_nil]
    · intro h; exact List.append_cancel_left (h.symm.trans (List.append_nil _).symm)
  refine ⟨?_, (read_eq_nil_iff r.2 hn).trans hall, fun hle => hall.mp ?_⟩
  · exact ⟨Source.contents (r.2.read n).2, by
      rw [List.append_assoc, ← happ]
      exact congrArg _ (Source.read_append r.2 n hn)⟩
  · obtain h | h := length_le_reads_or_nil ({ source := s } : ChunkedDecoder σ) hns
    · have hle' : ns.length ≤ r.1.flatten.length := h
      have := congrArg List.length happ
      rw [List.length_append] at this
      exact List.length_eq_zero_iff.mp (by omega)
    · exact h

def helloBody : Segments UInt8 := ⟨[ascii "he", ascii "llo"], by decide⟩

def helloWire : Segments UInt8 :=
  ⟨[ascii "2\r", ascii "\nhe\r\n3\r\nllo\r\n0\r\n\r\n"], by decide⟩

theorem read_writeMessageBody_hello :
    Source.contents helloWire = writeMessageBody helloBody (-1) ∧
      (reads ({ source := helloWire } : ChunkedDecoder (Segments UInt8)) [1, 2, 3, 4, 5]).1.flatten =
        ascii "hello" :=
  have hs : Source.contents helloWire = writeMessageBody helloBody (-1) := by decide +kernel
  ⟨hs, (read_writeMessageBody helloBody (by decide) helloWire hs (by decide) Nat.one_pos).2.2
    (by decide)⟩

end Nhttp.Server
