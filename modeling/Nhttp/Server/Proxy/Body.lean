import Nhttp.Server.BodyYields
import Nhttp.Server.Proxy.Basic

/-!
# The body a reverse proxy sends

* `Decodes`: octets that are a body framed as a head says, however they arrive.
* **`relayBody_decodes`**: for which requests the octets after the head are the body that the head
  frames.
-/

namespace Nhttp.Server

open Octets Reading Protocol Io

/-- `written` is the body `B` framed as `headers` say: `make_body_stream` yields `B` and leaves nothing. -/
def Decodes (headers : HttpHeaders) (written B : Bytes) : Prop :=
  ∀ b : BufferedWire (Segments UInt8), Source.contents b = written →
    ∃ body, makeBodyStream b headers = some body ∧ (drain 4096 body).1 = B ∧
      Source.contents (drain 4096 body).2.wire = []

/-- A request with a framing field has no more octets than its `Content-Length` says, and one without has none. -/
def BodyKept (headers : HttpHeaders) (B : Bytes) : Prop :=
  if headers.isset (ascii "Content-Length") ∨ headers.isset (ascii "Transfer-Encoding") then
    ∀ v, headers.get (ascii "Content-Length") = some v → ∀ n, parseContentLength 0 v = some n →
      0 ≤ n → B.length ≤ n
  else B = []

theorem bodyKept_iff (headers : HttpHeaders) (B : Bytes) :
    BodyKept headers B ↔ if originalHasBody headers then
      (0 ≤ outContentLength headers → B.length ≤ outContentLength headers) else B = [] := by
  have hbody : (headers.isset (ascii "Content-Length") ∨ headers.isset (ascii "Transfer-Encoding")) ↔
      originalHasBody headers = true := by simp [originalHasBody]
  have hlen : (∀ v, headers.get (ascii "Content-Length") = some v → ∀ n, parseContentLength 0 v = some n →
      0 ≤ n → (B.length : ℤ) ≤ n) ↔
        (0 ≤ outContentLength headers → B.length ≤ outContentLength headers) := by
    unfold outContentLength
    cases headers.get (ascii "Content-Length") with
    | none => simp
    | some v =>
      cases hp : parseContentLength 0 v with
      | none => simp [hp]
      | some n => simp [hp]
  unfold BodyKept
  by_cases hb : originalHasBody headers = true
  · rw [if_pos (hbody.mpr hb), if_pos hb, hlen]
  · rw [if_neg (mt hbody.mp hb), if_neg hb]

theorem drain_chunkedBody {b : BufferedWire (Segments UInt8)} {body : ChunkedBody}
    (h : Source.contents b = body.bytes) :
    (drain 4096 (chunkedBody b)).1 = body.data ∧ Source.contents (drain 4096 (chunkedBody b)).2.wire = [] := by
  have hscan := body.scan_bytes []
  rw [List.append_nil, ← h] at hscan
  have hdata : Source.contents ({ source := b } : ChunkedDecoder (BufferedWire (Segments UInt8))) =
      body.data := by
    change (scan ([] ++ Source.contents b)).body = _
    rw [List.nil_append, hscan]
  have hpast := (drain_chunked b (t := Reader.ret ()) trivial).2
  rw [hscan] at hpast
  refine ⟨?_, List.length_eq_zero_iff.mp (Nat.le_zero.mp hpast)⟩
  rw [← hdata]
  exact (yields_chunked 4096 _).drain (by omega) le_rfl

theorem parseContentLength_decimalDigits {n : ℕ} (h : n < 2 ^ 63) :
    parseContentLength 0 (decimalDigits n) = some (n : ℤ) := by
  have := parseContentLength_eq (isDigit_decimalDigits n)
    (show decimalNumber 0 (decimalDigits n) < 2 ^ 63 by rwa [decimalNumber_decimalDigits])
  rwa [decimalNumber_decimalDigits] at this

theorem outContentLength_lt (headers : HttpHeaders) : outContentLength headers < 2 ^ 63 := by
  unfold outContentLength
  split
  · decide
  · next cl _ =>
    by_cases hd : ∃ c ∈ cl, isDigit c = false
    · rw [(parseContentLength_eq_none 0).mpr hd]
      decide
    · have hd' : ∀ c ∈ cl, isDigit c = true := by simpa using hd
      rw [parseContentLength_zero hd', Option.getD_some]
      exact toInt64_lt _

variable {headers : HttpHeaders}

theorem not_isChunked_of_getAll (h : headers.getAll (ascii "Transfer-Encoding") = []) : ¬IsChunked headers :=
  fun hc => getAll_ne_nil_of_isChunked hc h

theorem decodes_length (hte : headers.getAll (ascii "Transfer-Encoding") = [])
    {n : ℕ} (hlt : n < 2 ^ 63) {vs : List Bytes}
    (hcl : headers.getAll (ascii "Content-Length") = decimalDigits n :: vs) (B : Bytes) :
    Decodes headers (B.take n) B ↔ B.length ≤ n := by
  have hbody : ∀ b : BufferedWire (Segments UInt8),
      makeBodyStream b headers = some (.range (RangeStream.new b 0 n)) := by
    intro b
    rw [makeBodyStream_of_not_isChunked b (not_isChunked_of_getAll hte), hcl]
    dsimp only
    rw [parseContentLength_decimalDigits hlt]
    rfl
  have hdrain : ∀ b : BufferedWire (Segments UInt8),
      (drain 4096 (BodyStream.range (RangeStream.new b 0 n))).1 = (Source.contents b).take n ∧
        Source.contents (drain 4096 (BodyStream.range (RangeStream.new b 0 n))).2.wire =
          (Source.contents b).drop n :=
    fun b => run_drain_range b n (Reader.ret ()) trivial
  constructor
  · intro h
    obtain ⟨body, hb, hd, -⟩ := h ⟨B.take n, closedWire⟩ (List.append_nil _)
    rw [hbody] at hb
    cases hb
    rw [(hdrain _).1] at hd
    have hlen := congrArg List.length hd
    rw [List.length_take] at hlen
    omega
  · intro h b hc
    rw [List.take_of_length_le h] at hc
    refine ⟨_, hbody b, ?_, ?_⟩
    · rw [(hdrain b).1, hc, List.take_of_length_le h]
    · rw [(hdrain b).2, hc, List.drop_eq_nil_of_le h]

theorem decodes_nil (hte : headers.getAll (ascii "Transfer-Encoding") = [])
    (hcl : headers.getAll (ascii "Content-Length") = []) (B : Bytes) :
    Decodes headers [] B ↔ B = [] := by
  have hbody : ∀ b : BufferedWire (Segments UInt8), makeBodyStream b headers = some (.memory b) := by
    intro b
    rw [makeBodyStream_of_not_isChunked b (not_isChunked_of_getAll hte), hcl]
  have hdrain : ∀ b : BufferedWire (Segments UInt8),
      drain 4096 (BodyStream.memory b) = ([], BodyStream.memory b) := fun b => drain_of_nil rfl
  constructor
  · intro h
    obtain ⟨body, hb, hd, -⟩ := h ⟨[], closedWire⟩ rfl
    rw [hbody] at hb
    cases hb
    rw [hdrain] at hd
    exact hd.symm
  · rintro rfl b hc
    exact ⟨_, hbody b, by rw [hdrain], by rw [hdrain]; exact hc⟩

/-- **The body that is relayed.** However the body is read and the octets arrive upstream, they are
decoded to the body exactly if it is kept. -/
theorem relayBody_decodes (up : Upstream) (req : Request) {τ : Type} [Readable τ UInt8] {body : τ}
    {B : Bytes} (hb : Yields 4096 body B) :
    Decodes (outHeaders up req) (relayBody req body) B ↔ BodyKept req.headers B := by
  have hte := getAll_outHeaders_te up req
  have hcl := getAll_outHeaders_cl up req
  rw [bodyKept_iff, relayBody, writeMessageBody]
  by_cases hbody : originalHasBody req.headers = true
  · rw [if_pos hbody, if_pos hbody]
    by_cases hneg : outContentLength req.headers < 0
    · -- a chunked body is never cut
      rw [if_pos ⟨hbody, hneg⟩] at hte
      rw [if_pos hneg]
      refine iff_of_true (fun b hc => ?_) fun h => absurd hneg (not_lt.mpr h)
      obtain ⟨chunks, hw, hd⟩ := writeChunks_of_yields hb
      have hch : IsChunked (outHeaders up req) := by
        rw [IsChunked, HttpHeaders.get_eq_head_getAll, hte]
        decide +kernel
      obtain ⟨hdata, hleft⟩ := drain_chunkedBody (hc.trans hw)
      exact ⟨_, makeBodyStream_chunked hch b, hdata.trans hd, hleft⟩
    · rw [if_neg fun h => hneg h.2] at hte
      rw [if_pos (not_lt.mp hneg)] at hcl
      have hlt := outContentLength_lt req.headers
      rw [if_neg hneg, writeExactly_of_yields hb, decodes_length hte (by omega) hcl]
      omega
  · have hset : originalHasBody req.headers = false := Bool.eq_false_iff.mpr hbody
    rw [originalHasBody, Bool.or_eq_false_iff] at hset
    have hneg : ¬0 ≤ outContentLength req.headers := fun h => by
      rw [isset_of_outContentLength h] at hset
      cases hset.1
    rw [if_neg hneg, HttpHeaders.getAll_eq_nil_iff.mpr hset.1] at hcl
    rw [if_neg fun h => hbody h.1] at hte
    rw [if_neg hbody, if_neg hbody, decodes_nil hte hcl]

/-- A chunked body of unknown length is relayed, whatever its cuts. -/
theorem relayBody_decodes_hello :
    Decodes (outHeaders localUpstream { queryRequest with
        headers := [⟨ascii "Transfer-Encoding", ascii "chunked"⟩] })
      (relayBody { queryRequest with headers := [⟨ascii "Transfer-Encoding", ascii "chunked"⟩] } helloBody)
      (ascii "hello") := by
  refine (relayBody_decodes localUpstream _ (yields_contents 4096 helloBody)).mpr ?_
  rw [BodyKept, if_pos (by decide +kernel)]
  have hnone : HttpHeaders.get [⟨ascii "Transfer-Encoding", ascii "chunked"⟩] (ascii "Content-Length") =
      none := by decide +kernel
  exact fun v hv => absurd (hnone.symm.trans hv) (by simp)

/-- A body without a framing field is dropped; one with both fields is cut at its `Content-Length`. -/
theorem relayBody_dropped :
    relayBody { queryRequest with headers := [] } helloBody = [] ∧
      ¬Decodes (outHeaders localUpstream { queryRequest with headers := [] })
        (relayBody { queryRequest with headers := [] } helloBody) (ascii "hello") ∧
      relayBody { queryRequest with headers := [⟨ascii "Transfer-Encoding", ascii "chunked"⟩,
        ⟨ascii "Content-Length", ascii "2"⟩] } helloBody = ascii "he" := by
  refine ⟨by decide +kernel, ?_, by decide +kernel⟩
  rw [show relayBody { queryRequest with headers := [] } helloBody = [] by decide +kernel,
    decodes_nil (by decide +kernel) (by decide +kernel)]
  decide

end Nhttp.Server
