import Nhttp.Server.H2.Handed

/-!
# One request, two protocols

A method, a target, an authority and some headers can be sent as an HTTP/1.1 message or as an HTTP/2 header list.

* `RequestText.http1`, `RequestText.IsHttp2`: the two forms of a message.
* `requestRead_http1`, `requestOf_http2`: the two requests.
* **`requests_agree_iff`**: when they agree.
-/

open List

namespace Nhttp.Protocol

open Octets

/-! ## Lower case -/

theorem toNat_toLower (c : UInt8) :
    (toLower c).toNat = if 65 ≤ c.toNat ∧ c.toNat ≤ 90 then c.toNat + 32 else c.toNat := by
  have hc : (decide (0x41 ≤ c) && decide (c ≤ 0x5a)) = true ↔ 65 ≤ c.toNat ∧ c.toNat ≤ 90 := by
    rw [Bool.and_eq_true, decide_eq_true_eq, decide_eq_true_eq, UInt8.le_iff_toNat_le]
    rfl
  unfold toLower
  by_cases h : 65 ≤ c.toNat ∧ c.toNat ≤ 90
  · rw [if_pos (hc.mpr h), if_pos h, UInt8.toNat_add]
    have : (0x20 : UInt8).toNat = 32 := rfl
    omega
  · rw [if_neg (mt hc.mp h), if_neg h]

theorem toLower_toLower (c : UInt8) : toLower (toLower c) = toLower c := by
  rw [← UInt8.toNat_inj, toNat_toLower (toLower c), toNat_toLower]
  split_ifs <;> omega

/-- An octet that is not a letter is its own lower case, and that of no other. -/
theorem toLower_eq_iff {c d : UInt8} (hd : d.toNat < 65) : toLower c = d ↔ c = d := by
  rw [← UInt8.toNat_inj, ← UInt8.toNat_inj, toNat_toLower]
  split_ifs <;> omega

theorem strncasecmp_map_toLower (a b : Bytes) : strncasecmp (a.map toLower) b = strncasecmp a b := by
  induction a generalizing b with
  | nil => rfl
  | cons c a ih =>
    cases b with
    | nil => rfl
    | cons d b =>
      have hzero : (toLower c == 0) = (c == 0) := by
        rw [Bool.eq_iff_iff, beq_iff_eq, beq_iff_eq]
        exact toLower_eq_iff (by decide)
      simp only [map_cons, strncasecmp, toLower_toLower, hzero, ih]

theorem headerNameEquals_map_toLower (a b : Bytes) : headerNameEquals (a.map toLower) b = headerNameEquals a b := by
  rw [headerNameEquals, headerNameEquals, length_map, strncasecmp_map_toLower]

end Nhttp.Protocol

namespace Nhttp.Server

open Octets Reading Protocol Http2

/-! ## Requests of `connection` -/

section Read

variable {ω : Type} [Source ω UInt8]

/-- The request of one turn of `connection::run`. -/
def requestRead (p : Params) (b : BufferedWire ω) : Option Request :=
  match readHead p b with
  | none => none
  | some (resource, headers, b) =>
    match makeBodyStream b headers with
    | none => none
    | some _ => some ⟨resource, headers, extractHostname headers⟩

variable {b : BufferedWire ω} {p : Params} {req : Request} {raw rest rest' bs : Bytes} {hs : HttpHeaders}
  {ns : List ℕ}

/-- **The turn** hands this request to the handler. -/
theorem serve_of_requestRead (h : requestRead p b = some req) (handler : Option Handler) :
    ∃ body, serve p handler b = serveBody handler req.resource req.headers body ∧
      req.hostname = extractHostname req.headers := by
  unfold requestRead readHead at h
  rcases hl : readRequestLine b p.maxRequestLineSize with _ | ⟨r, b₁⟩
  · rw [hl] at h
    cases h
  · rw [hl] at h
    dsimp only at h
    rcases hh : readHeaders b₁ [] p.maxHeaderSize with _ | ⟨hs, b₂⟩
    · rw [hh] at h
      cases h
    · rw [hh] at h
      dsimp only at h
      rcases hbody : makeBodyStream b₂ hs with _ | body
      · rw [hbody] at h
        cases h
      · rw [hbody] at h
        cases h
        refine ⟨body, ?_, rfl⟩
        rw [serve, hl]
        dsimp only
        rw [hh]
        dsimp only
        rw [hbody]

/-! ## A head has one reading -/

theorem raw_unique {raw' : Bytes} (h : LF ∉ raw) (h' : LF ∉ raw')
    (he : raw ++ LF :: rest = raw' ++ LF :: rest') : raw = raw' ∧ rest = rest' := by
  have hcut := cutAt_append_cons h rest
  rw [he, cutAt_append_cons h' rest'] at hcut
  cases hcut
  exact ⟨rfl, rfl⟩

theorem Block.unique {hs' : HttpHeaders} {ns' : List ℕ}
    (h : Block bs hs rest ns) (h' : Block bs hs' rest' ns') : hs = hs' := by
  induction h generalizing hs' ns' with
  | @last raw rest hraw hl =>
    generalize he : raw ++ LF :: rest = bs at h'
    cases h' with
    | last _ _ _ => rfl
    | field hraw' hl' _ =>
      obtain ⟨rfl, -⟩ := raw_unique hraw hraw' he
      rw [hl] at hl'
      cases hl'
  | @field raw bs x hs rest ns hraw hl hblock ih =>
    generalize he : raw ++ LF :: bs = bs' at h'
    cases h' with
    | last _ hraw' hl' =>
      obtain ⟨rfl, -⟩ := raw_unique hraw hraw' he
      rw [hl] at hl'
      cases hl'
    | field hraw' hl' hblock' =>
      obtain ⟨rfl, rfl⟩ := raw_unique hraw hraw' he
      rw [hl] at hl'
      cases hl'
      rw [ih hblock']

theorem eq_of_requestRead (h : requestRead p b = some req) {r : HttpResource} (hraw : LF ∉ raw)
    (hr : requestLine raw = some r) (hblock : Block bs hs rest ns) (hb : Source.contents b = raw ++ LF :: bs) :
    req = ⟨r, hs, extractHostname hs⟩ := by
  unfold requestRead readHead at h
  cases hl : readRequestLine b p.maxRequestLineSize with
  | none =>
    rw [hl] at h
    cases h
  | some x =>
    obtain ⟨r', b'⟩ := x
    obtain ⟨raw', bs', hc, hraw', hr', hb', -⟩ := line_of_readRequestLine hl
    obtain ⟨rfl, rfl⟩ := raw_unique hraw hraw' (hb.symm.trans hc)
    rw [hr] at hr'
    cases hr'
    rw [hl] at h
    dsimp only at h
    cases hh : readHeaders b' [] p.maxHeaderSize with
    | none =>
      rw [hh] at h
      cases h
    | some y =>
      obtain ⟨hs'', ns', rfl, hblock', -⟩ := block_of_readHeaders hh
      rw [hb'] at hblock'
      obtain rfl := hblock.unique hblock'
      rw [hh] at h
      dsimp only at h
      split at h
      · cases h
      · cases h
        rfl

end Read

/-! ## Authorities -/

inductive Host where
  | name (n : Bytes) (colon : 0x3a ∉ n) (bracket : n.head? ≠ some 0x5b)
  | literal (a : Bytes) (close : 0x5d ∉ a)

def Host.text : Host → Bytes
  | name n _ _ => n
  | literal a _ => 0x5b :: a ++ [0x5d]

structure Authority where
  host : Host
  port : Option Bytes

def portText : Option Bytes → Bytes
  | none => []
  | some p => 0x3a :: p

def Authority.text (a : Authority) : Bytes := a.host.text ++ portText a.port

theorem Authority.text_eq_host_iff (a : Authority) : a.host.text = a.text ↔ a.port = none := by
  unfold text
  cases a.port with
  | none => exact iff_of_true (append_nil _).symm rfl
  | some p => simp [portText]

/-- **`extract_hostname` drops the port.** -/
theorem extractHostname_authority {headers : HttpHeaders} {a : Authority}
    (h : headers.get (ascii "Host") = some a.text) : extractHostname headers = a.host.text := by
  obtain ⟨host, port⟩ := a
  cases host with
  | name n colon bracket =>
    have hget : headers.get (ascii "Host") = some (n ++ portText port) := h
    have hhead : (n ++ portText port).head? ≠ some 0x5b := by
      cases n with
      | nil =>
        cases port with
        | none => exact bracket
        | some p => simp [portText]
      | cons c n => exact bracket
    rw [extractHostname, hget]
    dsimp only
    rw [if_neg hhead]
    cases port with
    | none => rw [portText, append_nil, cutAt_eq_none.mpr colon, Host.text]
    | some p => rw [portText, cutAt_append_cons colon, Host.text]
  | literal a close =>
    have hget : headers.get (ascii "Host") = some ((0x5b :: a) ++ 0x5d :: portText port) := by
      rw [h, Authority.text, Host.text, append_assoc, singleton_append]
    have hclose : 0x5d ∉ 0x5b :: a := by
      rw [mem_cons]
      exact not_or.mpr ⟨by decide, close⟩
    have hhead : ((0x5b :: a) ++ 0x5d :: portText port).head? = some 0x5b := rfl
    rw [extractHostname, hget]
    dsimp only
    rw [if_pos hhead, cutAt_append_cons hclose, Host.text]

/-! ## Messages -/

/-- A method, a target, an authority and the headers before and after the `Host` field. -/
structure RequestText where
  method : Bytes
  target : Bytes
  authority : Authority
  before : HttpHeaders
  after : HttpHeaders
  method_ok : 0x20 ∉ method ∧ LF ∉ method
  target_ok : 0x20 ∉ target ∧ LF ∉ target
  authority_ok : IsFieldValue authority.text
  headers_plain : ∀ h ∈ before ++ after, h.Plain
  not_host : ∀ h ∈ before ++ after, headerNameEquals h.name (ascii "Host") = false

def lowerField (h : HttpHeader) : HttpHeader := { h with name := h.name.map toLower }

namespace RequestText

def hostField (m : RequestText) : HttpHeader := ⟨ascii "Host", m.authority.text⟩

def headers1 (m : RequestText) : HttpHeaders := m.before ++ m.hostField :: m.after

def http1 (m : RequestText) : Bytes :=
  m.method ++ 0x20 :: (m.target ++ 0x20 :: ascii "HTTP/1.1") ++ CR :: LF :: (m.headers1.writeTo ++ [CR, LF])

def fields2 (m : RequestText) : HeaderList := (m.before ++ m.after).map fun h => ⟨(lowerField h).name, h.value⟩

def IsHttp2 (m : RequestText) (fields : HeaderList) : Prop :=
  ∃ scheme pseudo, List.Perm pseudo [⟨ascii ":method", m.method⟩, ⟨ascii ":scheme", scheme⟩,
    ⟨ascii ":authority", m.authority.text⟩, ⟨ascii ":path", m.target⟩] ∧ fields = pseudo ++ m.fields2

variable (m : RequestText)

theorem requestLine_http1 :
    requestLine (m.method ++ 0x20 :: (m.target ++ 0x20 :: ascii "HTTP/1.1") ++ [CR]) =
      some (HttpResource.setTarget { method := ⟨m.method⟩ } m.target) := by
  rw [requestLine, stripCr_append_cr, cutAt_append_cons m.method_ok.1]
  dsimp only [Option.bind_eq_bind, Option.bind_some]
  rw [cutAt_append_cons m.target_ok.1]
  rfl

theorem plain_headers1 : ∀ h ∈ m.headers1, h.Plain := by
  intro h hh
  obtain hh | hh := mem_append.mp hh
  · exact m.headers_plain h (mem_append_left _ hh)
  · obtain rfl | hh := mem_cons.mp hh
    · exact ⟨(by decide : IsFieldName (ascii "Host")), m.authority_ok⟩
    · exact m.headers_plain h (mem_append_right _ hh)

theorem get_headers1 : m.headers1.get (ascii "Host") = some m.authority.text := by
  have hbefore : ∀ h ∈ m.before, ¬headerNameEquals h.name (ascii "Host") = true := by
    intro h hh
    rw [m.not_host h (mem_append_left _ hh)]
    exact Bool.false_ne_true
  have hhost : headerNameEquals m.hostField.name (ascii "Host") = true := headerNameEquals_self _
  rw [HttpHeaders.get, headers1, find?_append, find?_eq_none.mpr hbefore, Option.none_or, find?_cons,
    hhost]
  rfl

theorem requestRead_http1 {ω : Type} [Source ω UInt8] {p : Params} {b : BufferedWire ω} {rest : Bytes}
    {req : Request} (hb : Source.contents b = m.http1 ++ rest) (h : requestRead p b = some req) :
    req = ⟨HttpResource.setTarget { method := ⟨m.method⟩ } m.target, m.headers1, m.authority.host.text⟩ := by
  have hlf : LF ∉ m.method ++ 0x20 :: (m.target ++ 0x20 :: ascii "HTTP/1.1") ++ [CR] := by
    have h1 := m.method_ok.2
    have h2 := m.target_ok.2
    have h3 : LF ∉ 0x20 :: ascii "HTTP/1.1" ++ [CR] := by decide
    have h4 : LF ≠ 0x20 := by decide
    simp only [mem_append, mem_cons, not_or] at h3 ⊢
    exact ⟨⟨h1, h4, h2, h3.1⟩, h3.2⟩
  have hp := m.plain_headers1
  have hblock := block_writeTo (fun x hx => ⟨(hp x hx).1, (hp x hx).2.lf⟩) rest
  rw [map_trimmed hp] at hblock
  have hc : Source.contents b = m.method ++ 0x20 :: (m.target ++ 0x20 :: ascii "HTTP/1.1") ++ [CR] ++
      LF :: (m.headers1.writeTo ++ CR :: LF :: rest) := by
    rw [hb, http1]
    simp only [append_assoc, cons_append, nil_append]
  rw [eq_of_requestRead h hlf m.requestLine_http1 hblock hc, extractHostname_authority m.get_headers1]

end RequestText

/-! ## Header lists -/

theorem lastValue_of_unique {fields : HeaderList} {f : HeaderField} (hf : f ∈ fields)
    (hu : ∀ g ∈ fields, g.name = f.name → g = f) : lastValue fields f.name = some f.value := by
  unfold lastValue
  have hmem : f ∈ fields.filter fun g => g.name = f.name := mem_filter.mpr ⟨hf, decide_eq_true rfl⟩
  cases hl : (fields.filter fun g => g.name = f.name).getLast? with
  | none =>
    rw [getLast?_eq_none_iff.mp hl] at hmem
    cases hmem
  | some g =>
    obtain ⟨hg, hname⟩ := mem_filter.mp (mem_of_getLast? hl)
    rw [Option.map_some, hu g hg (of_decide_eq_true hname)]

namespace RequestText

variable (m : RequestText)

theorem head?_fields2 {f : HeaderField} (hf : f ∈ m.fields2) : f.name.head? ≠ some 0x3a := by
  obtain ⟨h, hh, rfl⟩ := mem_map.mp hf
  have hcolon := (m.headers_plain h hh).1.colon
  intro hhead
  have hmem : 0x3a ∈ h.name.map toLower := mem_of_head? hhead
  obtain ⟨c, hc, he⟩ := mem_map.mp hmem
  rw [toLower_eq_iff (by decide)] at he
  exact hcolon (he ▸ hc)

theorem requestOf_http2 {fields : HeaderList} (h : m.IsHttp2 fields) :
    requestOf fields = ⟨{ targetOf m.target with method := ⟨m.method⟩, httpMajor := 2, httpMinor := 0 },
      (m.before ++ m.after).map lowerField, m.authority.text⟩ := by
  obtain ⟨scheme, pseudo, hp, rfl⟩ := h
  have hcolon : ∀ f ∈ pseudo, f.name.head? = some 0x3a := by
    intro f hf
    have hmem := hp.mem_iff.mp hf
    simp only [mem_cons, not_mem_nil, or_false] at hmem
    obtain rfl | rfl | rfl | rfl := hmem <;> rfl
  have hnodup : (pseudo.map HeaderField.name).Nodup := by
    rw [(hp.map HeaderField.name).nodup_iff]
    exact (by decide : [ascii ":method", ascii ":scheme", ascii ":authority", ascii ":path"].Nodup)
  have hlast : ∀ f ∈ pseudo, lastValue (pseudo ++ m.fields2) f.name = some f.value := by
    intro f hf
    refine lastValue_of_unique (mem_append_left _ hf) fun g hg hname => ?_
    obtain hg | hg := mem_append.mp hg
    · exact inj_on_of_nodup_map hnodup hg hf hname
    · exact absurd (hname ▸ hcolon f hf) (m.head?_fields2 hg)
  have hfilter : ((pseudo ++ m.fields2).filter fun f => f.name.head? ≠ some 0x3a) = m.fields2 := by
    rw [filter_append, filter_eq_nil_iff.mpr fun f hf => by simp [hcolon f hf],
      filter_eq_self.mpr fun f hf => decide_eq_true (m.head?_fields2 hf), nil_append]
  have hmethod := hlast ⟨ascii ":method", m.method⟩ (hp.mem_iff.mpr (by simp))
  have hauthority := hlast ⟨ascii ":authority", m.authority.text⟩ (hp.mem_iff.mpr (by simp))
  have hpath := hlast ⟨ascii ":path", m.target⟩ (hp.mem_iff.mpr (by simp))
  unfold requestOf
  rw [hmethod, hauthority, hpath, hfilter, fields2, map_map]
  rfl

end RequestText

/-! ## Agreement -/

/-- The fields other than `Host`, with their names in lower case. -/
def otherFields (hs : HttpHeaders) : HttpHeaders :=
  (hs.filter fun h => !headerNameEquals h.name (ascii "Host")).map lowerField

theorem otherFields_append (hs hs' : HttpHeaders) : otherFields (hs ++ hs') = otherFields hs ++ otherFields hs' := by
  rw [otherFields, filter_append, map_append]
  rfl

theorem otherFields_map_lowerField (hs : HttpHeaders) : otherFields (hs.map lowerField) = otherFields hs := by
  unfold otherFields
  rw [filter_map, map_map]
  have hname : (fun h : HttpHeader => !headerNameEquals h.name (ascii "Host")) ∘ lowerField =
      fun h => !headerNameEquals h.name (ascii "Host") := by
    funext h
    rw [Function.comp_apply, lowerField, headerNameEquals_map_toLower]
  have hlower : lowerField ∘ lowerField = lowerField := by
    funext h
    simp only [Function.comp_apply, lowerField, map_map, Function.comp_def, toLower_toLower]
  rw [hname, hlower]

/-- Two requests say the same: `Host` itself, the letter case of names and the version apart. -/
structure Request.Agree (r₁ r₂ : Request) : Prop where
  method : r₁.resource.method = r₂.resource.method
  rawPath : r₁.resource.rawPath = r₂.resource.rawPath
  path : r₁.resource.path = r₂.resource.path
  query : r₁.resource.query = r₂.resource.query
  hostname : r₁.hostname = r₂.hostname
  headers : otherFields r₁.headers = otherFields r₂.headers

theorem RequestText.otherFields_headers1 (m : RequestText) :
    otherFields m.headers1 = otherFields (m.before ++ m.after) := by
  have hhost : otherFields [m.hostField] = [] := by
    rw [otherFields, filter_eq_nil_iff.mpr, map_nil]
    intro h hh
    rw [mem_singleton.mp hh, RequestText.hostField]
    exact Bool.false_ne_true
  rw [RequestText.headers1, append_cons, otherFields_append, otherFields_append, hhost, append_nil,
    otherFields_append]

/-- **When both protocols make the same request of a message**: exactly if the authority has no port. -/
theorem requests_agree_iff {ω : Type} [Source ω UInt8] (m : RequestText) {p : Params} {b : BufferedWire ω}
    {rest : Bytes} {r₁ r₂ : Request} (hb : Source.contents b = m.http1 ++ rest) (h₁ : requestRead p b = some r₁) {s : H2} {ref : ℕ}
    (hc : s.Collected ref) (hf : m.IsHttp2 (s.decoded ref).out) (h₂ : s.handed ref = some r₂) :
    r₁.Agree r₂ ↔ m.authority.port = none := by
  obtain ⟨-, rfl⟩ := H2.eq_of_handed hc h₂
  rw [m.requestRead_http1 hb h₁, m.requestOf_http2 hf, setTarget_eq, ← m.authority.text_eq_host_iff]
  constructor
  · intro h
    exact h.hostname
  · intro h
    exact ⟨rfl, rfl, rfl, rfl, h, by rw [m.otherFields_headers1, otherFields_map_lowerField]⟩

def localPort (withPort : Bool) : Option Bytes := if withPort then some (ascii "8080") else none

def localText (withPort : Bool) : RequestText where
  method := ascii "GET"
  target := ascii "/a%20b?x=1"
  authority := ⟨.name (ascii "localhost") (by decide) (by decide), localPort withPort⟩
  before := [⟨ascii "Accept", ascii "*/*"⟩]
  after := []
  method_ok := by decide
  target_ok := by decide
  authority_ok := by cases withPort <;> decide
  headers_plain := by decide
  not_host := by decide

/-- The message in one piece. -/
def localWire (withPort : Bool) : Segments UInt8 :=
  ⟨[(localText withPort).http1], by cases withPort <;> decide⟩

def localFields (withPort : Bool) : HeaderList :=
  [⟨ascii ":method", ascii "GET"⟩, ⟨ascii ":scheme", ascii "http"⟩,
    ⟨ascii ":authority", ascii "localhost" ++ portText (localPort withPort)⟩, ⟨ascii ":path", ascii "/a%20b?x=1"⟩,
    ⟨ascii "accept", ascii "*/*"⟩]

theorem isHttp2_localFields (withPort : Bool) : (localText withPort).IsHttp2 (localFields withPort) :=
  ⟨ascii "http", _, List.Perm.refl _, rfl⟩

theorem requests_agree_local :
    ∃ r₁ r₂ : Request, requestRead {} ⟨[], localWire false⟩ = some r₁ ∧
      (collecting (localFields false)).handed 0 = some r₂ ∧ r₁.Agree r₂ := by
  have hsome : (requestRead {} ⟨[], localWire false⟩).isSome = true := by decide +kernel
  obtain ⟨r₁, h₁⟩ := Option.isSome_iff_exists.mp hsome
  have h₂ : (collecting (localFields false)).handed 0 = some (requestOf (localFields false)) :=
    handed_collecting (by decide +kernel)
  have hw : Source.contents (BufferedWire.mk [] (localWire false)) = (localText false).http1 ++ [] := rfl
  have hf : (localText false).IsHttp2 ((collecting (localFields false)).decoded 0).out := by
    rw [decoded_collecting (by decide +kernel)]
    exact isHttp2_localFields false
  exact ⟨r₁, _, h₁, h₂, (requests_agree_iff (localText false) hw h₁ (collected_collecting _) hf h₂).mpr rfl⟩

/-- With a port, one protocol names the host and the other the host and the port. -/
theorem requests_disagree_port :
    Source.contents (localWire true) = (localText true).http1 ∧ (localText true).IsHttp2 (localFields true) ∧
      ∃ r₁ r₂ : Request, requestRead {} ⟨[], localWire true⟩ = some r₁ ∧
        (collecting (localFields true)).handed 0 = some r₂ ∧ r₁.hostname = ascii "localhost" ∧
        r₂.hostname = ascii "localhost:8080" ∧ ¬r₁.Agree r₂ := by
  have hsome : (requestRead {} ⟨[], localWire true⟩).map Request.hostname = some (ascii "localhost") := by
    decide +kernel
  obtain ⟨r₁, h₁, hhost₁⟩ := Option.map_eq_some_iff.mp hsome
  have h₂ : (collecting (localFields true)).handed 0 = some (requestOf (localFields true)) :=
    handed_collecting (by decide +kernel)
  have hhost₂ : (requestOf (localFields true)).hostname = ascii "localhost:8080" := by decide +kernel
  refine ⟨append_nil _, isHttp2_localFields true, r₁, _, h₁, h₂, hhost₁, hhost₂, fun hagree => ?_⟩
  have he := hagree.hostname
  rw [hhost₁, hhost₂] at he
  exact absurd he (by decide)

end Nhttp.Server
