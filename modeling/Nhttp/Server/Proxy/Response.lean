import Nhttp.Server.Proxy.Body

/-!
# The response a reverse proxy returns

* `ReverseProxy.onHandle`: `reverse_proxy::on_handle`, from the choice of an upstream to the response.
* `Framed`: the message body of a response by RFC 7230, section 3.3.3.
* **`onHandle_carries`**: for which responses the proxy carries exactly the message body.
-/

namespace Nhttp.Server

open Octets Reading Protocol Io Option
open List hiding not_le not_lt

section model

variable {ω τ : Type} [Source ω UInt8] [Readable τ UInt8]

/-! ## The exchange with an upstream -/

def readStatusLine (b : BufferedWire ω) : Option (StatusLine × BufferedWire ω) :=
  match StatusLine.tryParse b.leftover with
  | .done consumed status => some (status, { b with leftover := b.leftover.drop consumed })
  | .malformed => none
  | .more =>
    match _h : b.fillMore with
    | none => none
    | some b => readStatusLine b
termination_by left b.wire
decreasing_by exact (BufferedWire.fillMore_some _h).2

structure RelayedResponse (ω : Type) [Source ω UInt8] where
  status : ℕ
  headers : HttpHeaders
  body : Option (BodyStream ω) := none
  contentLength : ℤ := 0
  upgradeWire : Option (BufferedWire ω) := none

/-- `resp.content_length`. -/
def relayedContentLength (upstreamHeaders : HttpHeaders) : ℤ :=
  match upstreamHeaders.get (ascii "Content-Length") with
  | some cl => (parseContentLength 0 cl).getD (-1)
  | none => if upstreamHeaders.isset (ascii "Transfer-Encoding") then -1 else 0

def upgradeHeaders (upstreamHeaders : HttpHeaders) : HttpHeaders :=
  let hs := (copyRelayableHeaders upstreamHeaders []).set (ascii "Connection") (ascii "Upgrade")
  match upstreamHeaders.get (ascii "Upgrade") with
  | some v => hs.set (ascii "Upgrade") v
  | none => hs

/-- The response after its head has been read; `none` is a `502`. -/
def relayResponse (upgrade : Bool) (status : StatusLine) (upstreamHeaders : HttpHeaders)
    (b : BufferedWire ω) : Option (RelayedResponse ω) :=
  if upgrade ∧ status.code = 101 then
    some { status := status.code, headers := upgradeHeaders upstreamHeaders, upgradeWire := some b }
  else
    -- `make_owned_body_stream` decides as `make_body_stream` does
    (makeBodyStream b upstreamHeaders).map fun body =>
      { status := status.code
        headers := copyRelayableHeaders upstreamHeaders []
        body := some body
        contentLength := relayedContentLength upstreamHeaders }

/-- What is made of the octets of an upstream; `none` is a `502`. -/
def readResponse (upgrade : Bool) (wire : ω) : Option (RelayedResponse ω) := do
  let b ← (BufferedWire.mk [] wire).fillMore
  let (status, b) ← readStatusLine b
  let (headers, b) ← readHeaders b [] (64 * 1024)
  relayResponse upgrade status headers b

/-- `reverse_proxy`, without the prefix it is mounted at. -/
structure ReverseProxy where
  upstreams : List Upstream
  nextUpstream : ℕ := 0

inductive ProxyAnswer (ω : Type) [Source ω UInt8] where
  | declined
  | badGateway
  | relayed (resp : RelayedResponse ω)

/-- `on_handle`: the proxy after the call, what was written upstream, and the answer; `link` connects. -/
def ReverseProxy.onHandle (p : ReverseProxy) (link : Upstream → Option ω) (subpath : Bytes)
    (req : Request) (body : τ) : ReverseProxy × Bytes × ProxyAnswer ω :=
  match p.upstreams[p.nextUpstream % p.upstreams.length]? with
  | none => (p, [], .declined)
  | some up =>
    let p := { p with nextUpstream := (p.nextUpstream + 1) % 2 ^ 64 }
    match link up with
    | none => (p, [], .badGateway)
    | some wire =>
      (p, relayHead up subpath req ++ relayBody req body,
        match readResponse (wantsUpgrade req.headers) wire with
        | none => .badGateway
        | some resp => .relayed resp)

/-- The octets of the body, read under the content length as `write_message_body` reads it. -/
def RelayedResponse.carried (resp : RelayedResponse ω) : Bytes :=
  match resp.body with
  | none => []
  | some body =>
    if resp.contentLength < 0 then (drain 4096 body).1
    else writeExactly body resp.contentLength.toNat

end model

/-! ## Heads of upstreams -/

structure FieldLine where
  name : Bytes
  before : Bytes
  value : Bytes
  after : Bytes
  isFieldName : IsFieldName name
  isFieldValue : IsFieldValue value
  before_blank : ∀ c ∈ before, isBlank c = true
  after_blank : ∀ c ∈ after, isBlank c = true

namespace FieldLine

def line (f : FieldLine) : Bytes := f.name ++ 0x3a :: (f.before ++ (f.value ++ f.after))

def header (f : FieldLine) : HttpHeader := ⟨f.name, f.value⟩

theorem not_mem_line (f : FieldLine) : LF ∉ f.line := by
  have hblank : ∀ c : UInt8, isBlank c = true → c ≠ LF := by decide +kernel
  have h1 := f.isFieldName.lf
  have h2 := f.isFieldValue.lf
  have h3 : LF ∉ f.before := fun h => hblank _ (f.before_blank _ h) rfl
  have h4 : LF ∉ f.after := fun h => hblank _ (f.after_blank _ h) rfl
  have h5 : LF ≠ 0x3a := by decide
  simp [line, h1, h2, h3, h4, h5]

theorem headerLine_line (f : FieldLine) : headerLine (f.line ++ [CR]) = some (some f.header) := by
  have hcut : cutAt 0x3a f.line = some (f.name, f.before ++ (f.value ++ f.after)) :=
    cutAt_append_cons f.isFieldName.colon _
  rw [headerLine_crlf hcut, if_neg f.isFieldName.ne_nil,
    trim_padded f.before_blank f.after_blank f.isFieldValue.trim]
  rfl

end FieldLine

structure UpstreamHead where
  hundreds : UInt8
  tens : UInt8
  ones : UInt8
  reason : Bytes
  fields : List FieldLine
  isDigit_code : isDigit hundreds = true ∧ isDigit tens = true ∧ isDigit ones = true
  reason_lf : LF ∉ reason

namespace UpstreamHead

def statusLine (h : UpstreamHead) : Bytes :=
  ascii "HTTP/1.1 " ++ [h.hundreds, h.tens, h.ones, 0x20] ++ h.reason

def code (h : UpstreamHead) : ℕ :=
  (h.hundreds.toNat - 0x30) * 100 + (h.tens.toNat - 0x30) * 10 + (h.ones.toNat - 0x30)

def headers (h : UpstreamHead) : HttpHeaders := h.fields.map FieldLine.header

def block (fields : List FieldLine) : Bytes :=
  (fields.flatMap fun f => f.line ++ [CR, LF]) ++ [CR, LF]

def bytes (h : UpstreamHead) : Bytes := h.statusLine ++ CR :: LF :: block h.fields

theorem block_fields (fields : List FieldLine) (rest : Bytes) :
    Block (block fields ++ rest) (fields.map FieldLine.header) rest
      (fields.map (fun f => f.line.length + 1) ++ [1]) := by
  rw [block, append_assoc]
  exact block_of_lines (fun f _ => ⟨f.not_mem_line, f.headerLine_line⟩) rest

theorem statusLine_eq (h : UpstreamHead) :
    h.statusLine = 0x48 :: 0x54 :: 0x54 :: 0x50 :: 0x2f :: 0x31 :: 0x2e :: 0x31 :: 0x20 :: h.hundreds ::
      h.tens :: h.ones :: 0x20 :: h.reason := by
  rfl

theorem not_mem_statusLine (h : UpstreamHead) : LF ∉ h.statusLine := by
  have hdigit : ∀ c : UInt8, isDigit c = true → c ≠ LF := by decide +kernel
  obtain ⟨h1, h2, h3⟩ := h.isDigit_code
  rw [statusLine_eq]
  simp only [mem_cons, not_or]
  exact ⟨by decide, by decide, by decide, by decide, by decide, by decide, by decide, by decide, by decide,
    (hdigit _ h1).symm, (hdigit _ h2).symm, (hdigit _ h3).symm, by decide, h.reason_lf⟩

theorem tryParse_statusLine (h : UpstreamHead) (rest : Bytes) :
    StatusLine.tryParse (h.statusLine ++ CR :: LF :: rest) =
      .done (h.statusLine.length + 2) ⟨h.code, 1, 1⟩ := by
  have hdigit : ∀ c : UInt8, isDigit c = true → c ≠ 0x20 := by decide +kernel
  obtain ⟨h1, h2, h3⟩ := h.isDigit_code
  have hcode : (h.statusLine.drop 9).takeWhile (· ≠ 0x20) = [h.hundreds, h.tens, h.ones] := by
    simp [statusLine_eq, hdigit _ h1, hdigit _ h2, hdigit _ h3]
  unfold StatusLine.tryParse
  rw [lineAt_crlf h.not_mem_statusLine]
  dsimp only
  rw [if_neg (by rw [statusLine_eq]; simp; decide), hcode]
  dsimp only
  rw [if_pos]
  · rw [statusLine_eq]
    rfl
  · rw [statusLine_eq]
    simp only [all_cons, h1, h2, h3]
    rfl

end UpstreamHead

/-! ## Reading a head -/

section reading

variable {ω : Type} [Source ω UInt8]

theorem readStatusLine_fill (b b' : BufferedWire ω) (hlf : LF ∉ b.leftover)
    (hfill : b.fillMore = some b') : readStatusLine b = readStatusLine b' := by
  have hmore : StatusLine.tryParse b.leftover = .more := by
    rw [StatusLine.tryParse, lineAt_eq_none.mpr hlf]
  conv_lhs => rw [readStatusLine, hmore]
  dsimp only
  split
  · next h => rw [hfill] at h; cases h
  · next h => rw [hfill] at h; cases h; rfl

theorem fillMore_bind_readStatusLine (wire : ω) :
    ((BufferedWire.mk [] wire).fillMore.bind fun b => readStatusLine b) =
      readStatusLine ⟨[], wire⟩ := by
  cases hfill : (BufferedWire.mk [] wire).fillMore with
  | none =>
    have hmore : StatusLine.tryParse [] = .more := rfl
    rw [readStatusLine]
    dsimp only
    rw [hmore]
    dsimp only
    split
    · rfl
    · next h => rw [hfill] at h; cases h
  | some b => exact (readStatusLine_fill _ _ not_mem_nil hfill).symm

theorem readStatusLine_buffer (h : UpstreamHead) (r : Bytes) (w : ω) :
    readStatusLine ⟨h.statusLine ++ CR :: LF :: r, w⟩ = some (⟨h.code, 1, 1⟩, ⟨r, w⟩) := by
  rw [readStatusLine, h.tryParse_statusLine]
  dsimp only
  rw [drop_crlf]

variable {b : BufferedWire ω} {rest : Bytes}

theorem readStatusLine_line (h : UpstreamHead) (hb : Source.contents b = h.statusLine ++ CR :: LF :: rest) :
    ∃ b', Source.contents b' = rest ∧ readStatusLine b = some (⟨h.code, 1, 1⟩, b') := by
  rw [append_cons] at hb
  obtain ⟨r, w, hrest, hread⟩ := BufferedWire.fill_raw
    (fun b b' hlf _ hfill => readStatusLine_fill b b' hlf hfill) (not_mem_append_cr h.not_mem_statusLine) le_rfl b hb
  rw [append_assoc] at hread
  exact ⟨⟨r, w⟩, hrest, hread.trans (readStatusLine_buffer h r w)⟩

end reading

/-! ## Heads that arrive octet by octet -/

section singles

theorem readStatusLine_singles (h : UpstreamHead) (rest : Bytes) :
    readStatusLine ⟨[], Segments.singles (h.statusLine ++ CR :: LF :: rest)⟩ =
      some (⟨h.code, 1, 1⟩, ⟨[], Segments.singles rest⟩) := by
  have hfill := fill_singles (t := h.statusLine ++ [CR])
    (fun b b' hlf _ hfill => readStatusLine_fill b b' hlf hfill) rest []
    (not_mem_append_cr h.not_mem_statusLine) le_rfl
  rw [append_cons, hfill, nil_append, append_assoc, singleton_append,
    readStatusLine_buffer]

end singles

/-! ## Message bodies -/

def lastCoding (headers : HttpHeaders) : Option Bytes :=
  ((headers.getAll (ascii "Transfer-Encoding")).flatMap codings).getLast?

/-- `M` is the message body of a response with the octets `raw` behind its head. -/
inductive Framed (status : ℕ) (headers : HttpHeaders) : Bytes → Bytes → Prop
  /-- Any `Content-Length` is overridden. -/
  | chunked (body : ChunkedBody) (h : lastCoding headers = some (ascii "chunked")) :
      Framed status headers body.bytes body.data
  | length {raw v : Bytes} {vs : List Bytes} (hte : headers.getAll (ascii "Transfer-Encoding") = [])
      (hcl : headers.getAll (ascii "Content-Length") = v :: vs) (hvs : ∀ w ∈ vs, w = v)
      (hv : IsNumber v) (hlen : raw.length = decimalNumber 0 v) : Framed status headers raw raw
  | close {raw : Bytes} (hcl : headers.getAll (ascii "Content-Length") = [])
      (hte : ∀ v ∈ headers.getAll (ascii "Transfer-Encoding"),
        headerValueContainsToken v (ascii "chunked") = false) : Framed status headers raw raw
  | none (h : status / 100 = 1 ∨ status = 204 ∨ status = 304) : Framed status headers [] []

/-- A chunked body is not longer than a `Content-Length` beside it, a body without one is empty, and one with a length is
what that cuts off. -/
def MessageKept (headers : HttpHeaders) (raw M : Bytes) : Prop :=
  if IsChunked headers then
    ∀ v, headers.get (ascii "Content-Length") = some v → ∀ n, parseContentLength 0 v = some n →
      0 ≤ n → M.length ≤ n
  else
    match headers.get (ascii "Content-Length") with
    | none => M = []
    | some v =>
      match parseContentLength 0 v with
      | none => False
      | some n => if n < 0 then raw = M else raw.take n.toNat = M

/-- **A body with a length** below `2 ^ 63` is kept. -/
theorem messageKept_length {headers : HttpHeaders} {raw v : Bytes} {vs : List Bytes}
    (hte : headers.getAll (ascii "Transfer-Encoding") = []) (hcl : headers.getAll (ascii "Content-Length") = v :: vs)
    (hv : IsNumber v) (hlen : raw.length = decimalNumber 0 v) (hlt : decimalNumber 0 v < 2 ^ 63) :
    MessageKept headers raw raw := by
  have hget : headers.get (ascii "Content-Length") = some v := by
    rw [HttpHeaders.get_eq_head_getAll, hcl]
    rfl
  unfold MessageKept
  rw [if_neg fun hc => getAll_ne_nil_of_isChunked hc hte, hget]
  dsimp only
  rw [parseContentLength_zero hv.2, toInt64_of_lt (by omega) (by omega)]
  dsimp only
  rw [if_neg (by omega), Int.toNat_natCast, ← hlen, take_length]

theorem Framed.scan_eq {status : ℕ} {headers : HttpHeaders} {raw M : Bytes}
    (h : Framed status headers raw M) (hc : IsChunked headers) : (scan raw).body = M := by
  cases h with
  | chunked body _ =>
    have := body.scan_bytes []
    rw [append_nil] at this
    rw [this]
  | length hte => exact absurd hte (getAll_ne_nil_of_isChunked hc)
  | close _ hte =>
    rw [IsChunked, HttpHeaders.get_eq_head_getAll] at hc
    cases hv : headers.getAll (ascii "Transfer-Encoding") with
    | nil => rw [hv] at hc; cases hc
    | cons v vs =>
      rw [hv] at hc
      have : headerValueContainsToken v (ascii "chunked") = true := hc
      rw [hte v (by rw [hv]; exact mem_cons_self)] at this
      cases this
  | none => decide +kernel

section carried

variable {ω : Type} [Source ω UInt8]

variable {body : BodyStream ω} {xs : Bytes} {b : BufferedWire ω} {headers : HttpHeaders}

theorem carried_of_yields {resp : RelayedResponse ω} (h : resp.body = some body) (hy : Yields 4096 body xs) :
    resp.carried = if resp.contentLength < 0 then xs else xs.take resp.contentLength.toNat := by
  rw [RelayedResponse.carried, h]
  dsimp only
  rw [hy.drain (by omega) le_rfl, writeExactly_of_yields hy]

theorem relayResponse_carried {status : StatusLine} (h : makeBodyStream b headers = some body)
    (hy : Yields 4096 body xs) (M : Bytes) :
    (∃ resp, relayResponse false status headers b = some resp ∧ resp.carried = M) ↔
      (if relayedContentLength headers < 0 then xs else xs.take (relayedContentLength headers).toNat) =
        M := by
  rw [relayResponse, if_neg (by simp), h]
  constructor
  · rintro ⟨resp, he, hc⟩
    cases he
    rwa [carried_of_yields rfl hy] at hc
  · exact fun hc => ⟨_, rfl, by rwa [carried_of_yields rfl hy]⟩

theorem relayResponse_carried_iff {code : ℕ} {raw M : Bytes}
    (hf : Framed code headers raw M) (hb : Source.contents b = raw)
    (status : StatusLine) :
    (∃ resp, relayResponse false status headers b = some resp ∧ resp.carried = M) ↔
      MessageKept headers raw M := by
  unfold MessageKept
  by_cases hc : IsChunked headers
  · have hy : Yields 4096 (chunkedBody b) M := by
      have hdata : Source.contents ({ source := b } : ChunkedDecoder (BufferedWire ω)) = M := by
        change (scan ([] ++ Source.contents b)).body = M
        rw [nil_append, hb, hf.scan_eq hc]
      rw [← hdata]
      exact yields_chunked 4096 _
    have hset : headers.isset (ascii "Transfer-Encoding") = true :=
      HttpHeaders.isset_eq_true_iff.mpr (getAll_ne_nil_of_isChunked hc)
    rw [if_pos hc, relayResponse_carried (makeBodyStream_chunked hc b) hy, relayedContentLength]
    cases hcl : headers.get (ascii "Content-Length") with
    | none => simp [hset]
    | some v =>
      cases hp : parseContentLength 0 v with
      | none => simp [hp]
      | some n =>
        by_cases hn : n < 0
        · simp [hp, hn, not_le.mpr hn]
        · simp [hp, hn, not_lt.mp hn]
  · have hbody := makeBodyStream_of_not_isChunked b hc
    rw [if_neg hc]
    cases hcl : headers.getAll (ascii "Content-Length") with
    | nil =>
      have hget : headers.get (ascii "Content-Length") = none := by
        rw [HttpHeaders.get_eq_head_getAll, hcl]
        rfl
      rw [hcl] at hbody
      rw [relayResponse_carried hbody (yields_memory 4096 b), hget]
      simp [eq_comm]
    | cons v vs =>
      have hget : headers.get (ascii "Content-Length") = some v := by
        rw [HttpHeaders.get_eq_head_getAll, hcl]
        rfl
      rw [hcl] at hbody
      dsimp only at hbody
      rw [hget]
      dsimp only
      cases hp : parseContentLength 0 v with
      | none =>
        rw [hp] at hbody
        rw [relayResponse, hbody]
        simp
      | some n =>
        rw [hp] at hbody
        have hlen : relayedContentLength headers = n := by
          rw [relayedContentLength, hget]
          dsimp only
          rw [hp, getD_some]
        dsimp only
        by_cases hn : n < 0
        · rw [relayResponse_carried hbody (yields_unbounded 4096 b hn), hlen, if_pos hn, if_pos hn, hb]
        · obtain ⟨k, rfl⟩ := Int.eq_ofNat_of_zero_le (not_lt.mp hn)
          rw [relayResponse_carried hbody (yields_range b k), hlen, if_neg hn, if_neg hn, hb,
            Int.toNat_natCast, take_take, Nat.min_self]

end carried

/-! ## The proxy -/

section proxy

variable {ω τ : Type} [Source ω UInt8] [Readable τ UInt8]

theorem readResponse_eq (upgrade : Bool) (wire : ω) :
    readResponse upgrade wire = (readStatusLine ⟨[], wire⟩).bind fun r =>
      (readHeaders r.2 [] (64 * 1024)).bind fun h => relayResponse upgrade r.1 h.1 h.2 := by
  rw [← fillMore_bind_readStatusLine, bind_assoc]
  rfl

theorem onHandle_relayed_iff {p : ReverseProxy} (hp : p.upstreams ≠ []) (wire : ω) (subpath : Bytes)
    (req : Request) (body : τ) (resp : RelayedResponse ω) :
    (p.onHandle (fun _ => some wire) subpath req body).2.2 = .relayed resp ↔
      readResponse (wantsUpgrade req.headers) wire = some resp := by
  have hlt : p.nextUpstream % p.upstreams.length < p.upstreams.length :=
    Nat.mod_lt _ (length_pos_iff.mpr hp)
  unfold ReverseProxy.onHandle
  rw [getElem?_eq_getElem hlt]
  dsimp only
  cases readResponse (wantsUpgrade req.headers) wire with
  | none => simp
  | some r => simp

/-- **Responses that are relayed** carry exactly the message body, in whatever pieces the octets arrive, exactly if no
header line is longer than 64 KiB with its CR and the message body is kept. -/
theorem onHandle_carries {p : ReverseProxy} (hp : p.upstreams ≠ []) (subpath : Bytes) {req : Request}
    (hu : wantsUpgrade req.headers = false) (body : τ) (head : UpstreamHead) {raw M : Bytes}
    (hf : Framed head.code head.headers raw M) :
    (∀ wire : Segments UInt8, Source.contents wire = head.bytes ++ raw →
      ∃ resp, (p.onHandle (fun _ => some wire) subpath req body).2.2 = .relayed resp ∧
        resp.carried = M) ↔
      (∀ f ∈ head.fields, f.line.length < 64 * 1024) ∧ MessageKept head.headers raw M := by
  have hbytes : head.bytes ++ raw =
      head.statusLine ++ CR :: LF :: (UpstreamHead.block head.fields ++ raw) := by
    simp [UpstreamHead.bytes]
  simp only [onHandle_relayed_iff hp, hu, readResponse_eq]
  -- with short lines the head is read, and the body decides
  have hshort : (∀ f ∈ head.fields, f.line.length < 64 * 1024) → ∀ wire : Segments UInt8,
      Source.contents wire = head.bytes ++ raw →
      ((∃ resp, ((readStatusLine ⟨[], wire⟩).bind fun r => (readHeaders r.2 [] (64 * 1024)).bind
        fun h => relayResponse false r.1 h.1 h.2) = some resp ∧ resp.carried = M) ↔
          MessageKept head.headers raw M) := by
    intro hlen wire hw
    obtain ⟨b₁, hb₁, hline⟩ := readStatusLine_line head (b := ⟨[], wire⟩) (hw.trans hbytes)
    have hns : ∀ n ∈ head.fields.map (fun f => f.line.length + 1) ++ [1], n ≤ 64 * 1024 :=
      forall_mem_append.mpr ⟨forall_mem_map.mpr hlen, forall_mem_singleton.mpr (by decide)⟩
    obtain ⟨b₂, hhead, hb₂⟩ := exists_readHeaders_of_block (UpstreamHead.block_fields head.fields raw) hns [] b₁ hb₁
    rw [hline, bind_some, hhead, bind_some]
    exact relayResponse_carried_iff hf hb₂ _
  constructor
  · intro h
    have hlen : ∀ f ∈ head.fields, f.line.length < 64 * 1024 := by
      by_contra hlong
      push Not at hlong
      obtain ⟨resp, hresp, -⟩ := h (Segments.singles (head.bytes ++ raw)) (Segments.contents_singles _)
      obtain ⟨f, hf, hle⟩ := hlong
      have hlt : 64 * 1024 < f.line.length + 1 := Nat.lt_succ_of_le hle
      rw [hbytes, readStatusLine_singles, bind_some,
        readHeaders_singles_of_block (UpstreamHead.block_fields head.fields raw)
          ⟨_, mem_append_left _ (mem_map_of_mem hf), hlt⟩] at hresp
      cases hresp
    exact ⟨hlen, (hshort hlen _ (Segments.contents_singles _)).mp (h _ (Segments.contents_singles _))⟩
  · exact fun ⟨hlen, hkept⟩ wire hw => (hshort hlen wire hw).mpr hkept

/-! ## Samples -/

def chunkedField : FieldLine :=
  ⟨ascii "Transfer-Encoding", [0x20], ascii "chunked", [], by decide, by decide, by simp [isBlank],
    by simp⟩

def shortField : FieldLine :=
  ⟨ascii "Content-Length", [0x20], ascii "1", [], by decide, by decide, by simp [isBlank], by simp⟩

def okHead (fields : List FieldLine) : UpstreamHead :=
  ⟨0x32, 0x30, 0x30, ascii "OK", fields, by decide, by decide⟩

def localProxy : ReverseProxy := { upstreams := [localUpstream] }

/-- A chunked response that arrives octet by octet is relayed. -/
theorem onHandle_carries_chunked :
    ∃ resp, (localProxy.onHandle (fun _ => some (Segments.singles
        ((okHead [chunkedField]).bytes ++ hiBody.bytes))) (ascii "/") queryRequest helloBody).2.2 =
      .relayed resp ∧ resp.carried = ascii "hi" := by
  refine (onHandle_carries (by decide) (ascii "/") (by decide +kernel) helloBody (okHead [chunkedField])
    (.chunked hiBody (by decide +kernel))).mpr ⟨by decide +kernel, ?_⟩ _ (Segments.contents_singles _)
  have hnone : (okHead [chunkedField]).headers.get (ascii "Content-Length") = none := by decide +kernel
  rw [MessageKept, if_pos (by decide +kernel), hnone]
  exact fun v hv => absurd hv (by simp)

/-- A body framed by the end of the connection is dropped, and a chunked one is cut at a `Content-Length`. -/
theorem onHandle_cuts :
    Framed (okHead []).code (okHead []).headers (ascii "hello") (ascii "hello") ∧
      Framed (okHead [chunkedField, shortField]).code (okHead [chunkedField, shortField]).headers
        hiBody.bytes (ascii "hi") ∧
      (readResponse false (Segments.singles ((okHead []).bytes ++ ascii "hello"))).map
        RelayedResponse.carried = some [] ∧
      (readResponse false (Segments.singles ((okHead [chunkedField, shortField]).bytes ++
        hiBody.bytes))).map RelayedResponse.carried = some (ascii "h") ∧
      ¬∃ resp, (localProxy.onHandle (fun _ => some (Segments.singles
          ((okHead []).bytes ++ ascii "hello"))) (ascii "/") queryRequest helloBody).2.2 =
        .relayed resp ∧ resp.carried = ascii "hello" := by
  have hclose : (readResponse false (Segments.singles ((okHead []).bytes ++ ascii "hello"))).map
      RelayedResponse.carried = some [] := by decide +kernel
  refine ⟨.close (by decide) (by decide), .chunked hiBody (by decide +kernel), hclose,
    by decide +kernel, ?_⟩
  rintro ⟨resp, hr, hc⟩
  rw [onHandle_relayed_iff (by decide),
    show wantsUpgrade queryRequest.headers = false by decide +kernel] at hr
  rw [hr, map_some, hc] at hclose
  exact absurd hclose (by decide)

end proxy

end Nhttp.Server
