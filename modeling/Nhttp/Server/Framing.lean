import Nhttp.Server.ConnectionBody

/-!
# The framing of request bodies

* `rfcBodyStream`: the body stream RFC 7230, section 3.3.3 prescribes for a header list; `none`
  rejects the request.
* `parseContentLength_digits`: the value of a digit string of any length, in 64-bit arithmetic.
* **`makeBodyStream_framing`**: for which header lists `make_body_stream` rejects or agrees with it.
-/

namespace Nhttp.Server

open Octets Reading Protocol Io RangeStream

/-! ## The prescribed framing -/

/-- The transfer codings of a field value: its elements between commas. -/
def codings (value : Bytes) : List Bytes :=
  (value.splitOn 0x2c).map fun c => (trim c).map toLower

/-- Some `Transfer-Encoding` field names the chunked coding. -/
def NamesChunked (headers : HttpHeaders) : Prop :=
  ∃ v ∈ headers.getAll (ascii "Transfer-Encoding"), ascii "chunked" ∈ codings v

instance (headers : HttpHeaders) : Decidable (NamesChunked headers) :=
  inferInstanceAs (Decidable (∃ v ∈ _, _))

/-- A `Content-Length` that is a number. -/
def IsNumber (value : Bytes) : Prop := value ≠ [] ∧ ∀ c ∈ value, isDigit c = true

instance (value : Bytes) : Decidable (IsNumber value) := inferInstanceAs (Decidable (_ ∧ _))

section framing

variable {ω : Type} [Source ω UInt8]

/-- The body stream of a request by RFC 7230, section 3.3.3. -/
def rfcBodyStream (b : BufferedWire ω) (headers : HttpHeaders) : Option (BodyStream ω) :=
  if headers.getAll (ascii "Transfer-Encoding") ≠ [] then
    if NamesChunked headers then some (chunkedBody b) else none
  else match headers.getAll (ascii "Content-Length") with
    | [] => some (.memory b)
    | v :: vs =>
      if IsNumber v ∧ ∀ w ∈ vs, w = v then
        some (.range (RangeStream.new b 0 (decimalNumber 0 v : ℕ)))
      else none

end framing

/-! ## Content-Length -/

theorem toInt64_toInt64_mul_add (z w d : ℤ) :
    toInt64 (toInt64 z * w + d) = toInt64 (z * w + d) := by
  unfold toInt64
  rw [← Int.bmod_add_bmod, Int.bmod_mul_bmod, Int.bmod_add_bmod]

theorem parseContentLength_digits {digits : Bytes} (hd : ∀ c ∈ digits, isDigit c = true) (acc : ℕ) :
    parseContentLength (toInt64 acc) digits = some (toInt64 (decimalNumber acc digits : ℕ)) := by
  induction digits generalizing acc with
  | nil => rfl
  | cons c digits ih =>
    rw [parseContentLength, if_pos (hd c List.mem_cons_self), toInt64_toInt64_mul_add]
    exact_mod_cast ih (fun x hx => hd x (List.mem_cons_of_mem _ hx)) (acc * 10 + (c.toNat - 0x30))

theorem parseContentLength_zero {digits : Bytes} (hd : ∀ c ∈ digits, isDigit c = true) :
    parseContentLength 0 digits = some (toInt64 (decimalNumber 0 digits : ℕ)) :=
  parseContentLength_digits hd 0

theorem parseContentLength_eq_none {digits : Bytes} (acc : ℤ) :
    parseContentLength acc digits = none ↔ ∃ c ∈ digits, isDigit c = false := by
  induction digits generalizing acc with
  | nil => simp [parseContentLength]
  | cons c digits ih =>
    rw [parseContentLength]
    by_cases hc : isDigit c = true
    · rw [if_pos hc, ih]
      simp [hc]
    · rw [if_neg hc]
      simp [Bool.eq_false_iff.mpr hc]

theorem toInt64_natCast_eq_iff (n : ℕ) : toInt64 n = n ↔ n < 2 ^ 63 := by
  constructor
  · intro h
    have := toInt64_lt n
    omega
  · intro h
    exact toInt64_of_lt (by omega) (by omega)

theorem rangeStream_new_eq_iff {ω : Type} (b : BufferedWire ω) (e : ℤ) (n : ℕ) :
    new b 0 e = new b 0 (n : ℤ) ↔ e = n := by
  constructor
  · intro h
    have hn : (new b 0 (n : ℤ)).bounded = true ∧ (new b 0 (n : ℤ)).endPos = n := by
      simp [new, IoStream.getLength, show ¬(n : ℤ) < 0 by omega]
    rw [← h] at hn
    unfold new at hn
    split_ifs at hn with he
    · cases hn.1
    · simp only [IoStream.getLength] at hn
      omega
  · rintro rfl
    rfl

/-! ## The decision of the source -/

/-- The framing of the source is that of the RFC: a `chunked` in the first `Transfer-Encoding` is a coding; without it the
first `Content-Length` is refused, or the only value, of at most 63 bits, without a `Transfer-Encoding`. -/
def FramedPlainly (headers : HttpHeaders) : Prop :=
  if IsChunked headers then NamesChunked headers
  else match headers.getAll (ascii "Content-Length") with
    | [] => headers.getAll (ascii "Transfer-Encoding") = []
    | v :: vs => (∃ c ∈ v, isDigit c = false) ∨
        headers.getAll (ascii "Transfer-Encoding") = [] ∧ v ≠ [] ∧ (∀ w ∈ vs, w = v) ∧
          decimalNumber 0 v < 2 ^ 63

section decision

variable {ω : Type} [Source ω UInt8] (b : BufferedWire ω) {headers : HttpHeaders}

theorem getAll_ne_nil_of_isChunked (h : IsChunked headers) :
    headers.getAll (ascii "Transfer-Encoding") ≠ [] := by
  intro hn
  unfold IsChunked at h
  rw [HttpHeaders.get_eq_head_getAll, hn] at h
  cases h

theorem makeBodyStream_of_not_isChunked (h : ¬IsChunked headers) :
    makeBodyStream b headers =
      match headers.getAll (ascii "Content-Length") with
      | [] => some (.memory b)
      | v :: _ => (parseContentLength 0 v).map fun length => .range (new b 0 length) := by
  refine (if_neg h).trans ?_
  rw [HttpHeaders.get_eq_head_getAll]
  cases headers.getAll (ascii "Content-Length") <;> rfl

/-- **Framing.** `make_body_stream` rejects a request or frames its body as RFC 7230 does exactly if
its headers are framed plainly. -/
theorem makeBodyStream_framing (headers : HttpHeaders) :
    (makeBodyStream b headers = none ∨ makeBodyStream b headers = rfcBodyStream b headers) ↔
      FramedPlainly headers := by
  unfold FramedPlainly rfcBodyStream
  by_cases hc : IsChunked headers
  · rw [if_pos hc, makeBodyStream_chunked hc, if_pos (getAll_ne_nil_of_isChunked hc)]
    by_cases hn : NamesChunked headers <;> simp [hn]
  · rw [if_neg hc, makeBodyStream_of_not_isChunked b hc]
    cases hcl : headers.getAll (ascii "Content-Length") with
    | nil =>
      by_cases ht : headers.getAll (ascii "Transfer-Encoding") = []
      · simp [ht]
      · by_cases hn : NamesChunked headers <;> simp [ht, hn, chunkedBody]
    | cons v vs =>
      dsimp only
      by_cases hd : ∃ c ∈ v, isDigit c = false
      · rw [(parseContentLength_eq_none 0).mpr hd]
        simp [hd]
      · have hd' : ∀ c ∈ v, isDigit c = true := by simpa using hd
        rw [parseContentLength_zero hd', or_iff_right hd]
        by_cases ht : headers.getAll (ascii "Transfer-Encoding") = []
        · by_cases hv : IsNumber v ∧ ∀ w ∈ vs, w = v
          · simp [ht, hv, rangeStream_new_eq_iff, toInt64_natCast_eq_iff, hv.1.1]
          · have : ¬(v ≠ [] ∧ ∀ w ∈ vs, w = v) := fun h => hv ⟨⟨h.1, hd'⟩, h.2⟩
            simp [ht, hv]
            tauto
        · by_cases hn : NamesChunked headers <;> simp [ht, hn, chunkedBody]

/-- A body with a coding the server does not know. -/
def gzipHead : Bytes := ascii "POST / HTTP/1.1\r\nTransfer-Encoding: gzip\r\n\r\n"

/-- An unknown transfer coding is taken for an empty body, and what follows is parsed as the next request. -/
theorem makeBodyStream_gzip :
    makeBodyStream (arriving [nextRequest] (by decide)) [⟨ascii "Transfer-Encoding", ascii "gzip"⟩] =
        some (.memory (arriving [nextRequest] (by decide))) ∧
      rfcBodyStream (arriving [nextRequest] (by decide))
        [⟨ascii "Transfer-Encoding", ascii "gzip"⟩] = none ∧
      ((serve {} none (arriving [gzipHead ++ nextRequest] (by decide))).next.bind
        fun c => readRequestLine c 8192).map (fun r => r.1.path) = some (ascii "/next") := by
  refine ⟨rfl, ?_, by decide +kernel⟩
  rw [rfcBodyStream, if_pos (by decide +kernel), if_neg (by decide +kernel)]

end decision

end Nhttp.Server
