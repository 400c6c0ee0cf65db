import Nhttp.Server.Proxy.Basic

/-!
# The head a reverse proxy sends

* `forall_plain_outHeaders`: when all its fields are plain.
* `not_mem_of_tryParse`: what a parsed request line says about the line that was written.
* **`relayHead_oneRequestHead`**: for which requests the head is read back as one request head with
  the method, the path, the query and the fields meant.
-/

open List

namespace Nhttp.Protocol.HttpHeaders

open Octets

def hasName (name : Bytes) (h : HttpHeader) : Bool := headerNameEquals h.name name

/-! ## Fields after `set` -/

variable {P : Bytes → Prop} {name : Bytes}

theorem forall_name_set (hn : P name) (hs : HttpHeaders)
    (value : Bytes) : (∀ h ∈ hs.set name value, P h.name) ↔ ∀ h ∈ hs, P h.name := by
  induction hs with
  | nil => simpa [set] using hn
  | cons x hs ih =>
    rw [set]
    split_ifs <;> simp [ih]

theorem forall_value_set (hs : HttpHeaders) (name value : Bytes) :
    (∀ h ∈ hs.set name value, P h.value) ↔ P value ∧ ∀ h ∈ hs.eraseP (hasName name), P h.value := by
  induction hs with
  | nil => simp [set]
  | cons x hs ih =>
    rw [set, eraseP_cons, hasName]
    by_cases hx : headerNameEquals x.name name = true
    · simp [hx]
    · simp only [hx, Bool.false_eq_true, if_false, forall_mem_cons, ih, cond_false]
      tauto

theorem eraseP_set {name' : Bytes} (hl : name.length ≠ name'.length) (hs : HttpHeaders) (value : Bytes) :
    (hs.set name value).eraseP (hasName name') = HttpHeaders.set (hs.eraseP (hasName name')) name value := by
  induction hs with
  | nil => simp [set, hasName, headerNameEquals_of_length_ne hl]
  | cons x hs ih =>
    rw [set]
    by_cases hx : headerNameEquals x.name name = true
    · have hx' : headerNameEquals x.name name' = false :=
        headerNameEquals_of_length_ne fun he => hl ((length_eq_of_headerNameEquals hx).symm.trans he)
      simp [hasName, hx, hx', set]
    · by_cases hx' : headerNameEquals x.name name' = true
      · simp [hasName, hx, hx']
      · simp [hasName, hx, hx', set, ih]

end Nhttp.Protocol.HttpHeaders

namespace Nhttp.Server

open Octets Reading Protocol Io

/-! ## Plain heads -/

/-- The relayed fields that keep their values; the others are written anew. -/
def keptFields (headers : HttpHeaders) : HttpHeaders :=
  (if 0 ≤ outContentLength headers then
    (relayable headers).eraseP (HttpHeaders.hasName (ascii "Content-Length"))
  else relayable headers).eraseP (HttpHeaders.hasName (ascii "Host"))

theorem forall_plain_iff (hs : HttpHeaders) :
    (∀ h ∈ hs, h.Plain) ↔ (∀ h ∈ hs, IsFieldName h.name) ∧ ∀ h ∈ hs, IsFieldValue h.value := by
  simp only [HttpHeader.Plain, forall_and]

theorem forall_plain_relayedFields (up : Upstream) (headers : HttpHeaders) :
    (∀ h ∈ relayedFields up headers, h.Plain) ↔
      (∀ h ∈ relayable headers, IsFieldName h.name) ∧ ∀ h ∈ keptFields headers, IsFieldValue h.value := by
  have hhost : IsFieldName (ascii "Host") := by decide
  have hcl : IsFieldName (ascii "Content-Length") := by decide
  rw [forall_plain_iff, relayedFields, keptFields]
  split_ifs
  · rw [HttpHeaders.forall_name_set hcl, HttpHeaders.forall_name_set hhost, HttpHeaders.forall_value_set,
      HttpHeaders.eraseP_set (by decide), HttpHeaders.forall_value_set]
    simp only [isFieldValue_decimalDigits, up.isFieldValue, true_and]
  · rw [HttpHeaders.forall_name_set hhost, HttpHeaders.forall_value_set]
    simp only [up.isFieldValue, true_and]

theorem forall_plain_forwardedFields (req : Request) :
    (∀ h ∈ forwardedFields req, h.Plain) ↔ IsFieldValue req.hostname := by
  have h1 : IsFieldName (ascii "X-Forwarded-For") := by decide
  have h2 : IsFieldName (ascii "X-Forwarded-Host") := by decide
  have h3 : IsFieldName (ascii "X-Forwarded-Proto") ∧ IsFieldValue (ascii "http") := by decide
  have h4 : IsFieldValue (ascii "unknown") := by decide
  unfold forwardedFields
  split_ifs with he
  · simp [HttpHeader.Plain, h1, h2, h3, h4]
  · simp [HttpHeader.Plain, h1, h2, h3]

theorem forall_plain_connectionFields (headers : HttpHeaders) :
    (∀ h ∈ connectionFields headers, h.Plain) ↔
      (wantsUpgrade headers = true → IsFieldValue ((headers.get (ascii "Upgrade")).getD [])) := by
  have h1 : IsFieldName (ascii "Connection") ∧ IsFieldValue (ascii "Upgrade") := by decide
  have h2 : IsFieldName (ascii "Upgrade") := by decide
  have h3 : IsFieldValue (ascii "close") := by decide
  unfold connectionFields
  split_ifs with hu
  · simp [HttpHeader.Plain, hu, h1, h2]
  · simp [HttpHeader.Plain, hu, h1, h3]

theorem plain_codingFields (headers : HttpHeaders) : ∀ h ∈ codingFields headers, h.Plain := by
  unfold codingFields
  split_ifs
  · decide
  · simp

theorem forall_plain_outHeaders (up : Upstream) (req : Request) :
    (∀ h ∈ outHeaders up req, h.Plain) ↔
      ((∀ h ∈ relayable req.headers, IsFieldName h.name) ∧
        ∀ h ∈ keptFields req.headers, IsFieldValue h.value) ∧
      IsFieldValue req.hostname ∧
      (wantsUpgrade req.headers = true → IsFieldValue ((req.headers.get (ascii "Upgrade")).getD [])) := by
  rw [outHeaders_eq, forall_mem_append, forall_mem_append, forall_mem_append,
    forall_plain_relayedFields, forall_plain_forwardedFields, forall_plain_connectionFields]
  exact and_congr_right' (and_iff_left (plain_codingFields _))

/-! ## The request line -/

variable {k : ℕ} {r : HttpResource} {p method : Bytes}

theorem tryParse_eq_done {data : Bytes} (h : HttpResource.tryParse data = .done k r) :
    ∃ method target version rest, data = method ++ 0x20 :: (target ++ 0x20 :: (version ++ rest)) ∧
      0x20 ∉ method ∧ LF ∉ method ∧ 0x20 ∉ target ∧ LF ∉ target ∧ r.method = ⟨method⟩ ∧
      ∃ p, p <+: target ∧ 0x3f ∉ p ∧ r.path = urlDecode p := by
  unfold HttpResource.tryParse at h
  split at h
  · cases h
  next line k' hl =>
  obtain ⟨raw, tail, hdata, hlf, hline, -⟩ := lineAt_eq_some hl
  split at h
  · cases h
  next method line' hm =>
  split at h
  · cases h
  next target version ht =>
  split at h
  · cases h
  next =>
  cases h
  obtain ⟨hm, hm'⟩ := cutAt_eq_some.mp hm
  obtain ⟨ht, ht'⟩ := cutAt_eq_some.mp ht
  obtain ⟨cr, hcr⟩ := stripCr_prefix raw
  rw [← hline, hm, ht] at hcr
  have hlf' : LF ∉ method ∧ LF ∉ target := by
    rw [← hcr] at hlf
    simp only [mem_append, mem_cons, not_or] at hlf
    tauto
  refine ⟨method, target, version, cr ++ LF :: tail, ?_, hm', hlf'.1, ht', hlf'.2, ?_⟩
  · rw [hdata, ← hcr]
    simp
  · unfold HttpResource.setTarget
    split
    · next hq => exact ⟨rfl, target, prefix_rfl, cutAt_eq_none.mp hq, rfl⟩
    · next p q hq =>
      obtain ⟨hq, hq'⟩ := cutAt_eq_some.mp hq
      exact ⟨rfl, p, ⟨_, hq.symm⟩, hq', rfl⟩

theorem setTarget_append (r : HttpResource) (hp : 0x3f ∉ p) {q : QueryString} (hq : q.Ordered) :
    r.setTarget (p ++ q.write 0x3f) = { r with rawPath := p, query := q, path := urlDecode p } := by
  unfold HttpResource.setTarget
  have hparse := QueryString.parse_write hq 0x3f
  cases q with
  | nil =>
    rw [QueryString.write, append_nil, cutAt_eq_none.mpr hp]
    rw [show QueryString.parse [] = [] from hparse]
  | cons e q =>
    obtain ⟨k, v⟩ := e
    rw [QueryString.write, cons_append] at hparse ⊢
    rw [cutAt_append_cons hp]
    rw [← hparse]
    rfl

theorem tryParse_requestLine {target : Bytes} (h1 : 0x20 ∉ method) (h2 : LF ∉ method)
    (h3 : 0x20 ∉ target) (h4 : LF ∉ target) (rest : Bytes) :
    HttpResource.tryParse (method ++ 0x20 :: (target ++ ascii " HTTP/1.1") ++ CR :: LF :: rest) =
      .done ((method ++ 0x20 :: (target ++ ascii " HTTP/1.1")).length + 2)
        (HttpResource.setTarget { method := ⟨method⟩, httpMajor := 1, httpMinor := 1 } target) := by
  have hlf : LF ∉ method ++ 0x20 :: (target ++ ascii " HTTP/1.1") := by
    simp only [mem_append, mem_cons, not_or]
    exact ⟨h2, by decide, h4, by decide⟩
  have hcut : cutAt 0x20 (target ++ ascii " HTTP/1.1") = some (target, ascii "HTTP/1.1") :=
    cutAt_append_cons h3 _
  have hversion : HttpResource.parseVersion (ascii "HTTP/1.1") = some (1, 1) := by decide
  unfold HttpResource.tryParse
  rw [lineAt_crlf hlf]
  dsimp only
  rw [cutAt_append_cons h1]
  dsimp only
  rw [hcut]
  dsimp only
  rw [hversion]

theorem not_mem_target (h1 : 0x20 ∉ p) (h2 : LF ∉ p) (q : QueryString) :
    0x20 ∉ p ++ q.write 0x3f ∧ LF ∉ p ++ q.write 0x3f := by
  have hsp : 0x20 ∉ q.write 0x3f := fun h => absurd (QueryString.mem_write h) (by decide)
  have hlf : LF ∉ q.write 0x3f := fun h => absurd (QueryString.mem_write h) (by decide)
  exact ⟨fun h => (mem_append.mp h).elim h1 hsp, fun h => (mem_append.mp h).elim h2 hlf⟩

/-- The method and the path survive only if they have no octet that separates anything. -/
theorem not_mem_of_tryParse {rest : Bytes}
    (h : HttpResource.tryParse (method ++ 0x20 :: (p ++ rest)) = .done k r)
    (hm : r.method = ⟨method⟩) (hp : r.path = p) :
    (0x20 ∉ method ∧ LF ∉ method) ∧ 0x20 ∉ p ∧ LF ∉ p ∧ 0x3f ∉ p := by
  obtain ⟨method', target, version, tail, hdata, hm1, hm2, ht1, ht2, hm', p', hpre, hq, hp'⟩ :=
    tryParse_eq_done h
  obtain rfl : method = method' := by
    rw [hm] at hm'
    exact congrArg HttpMethod.name hm'
  -- the path that is read is not longer than its text, so the text starts with the path written
  have hle : p.length ≤ p'.length := by
    rw [← hp, hp']
    exact length_urlDecode_le p'
  have hcancel := append_cancel_left hdata
  obtain ⟨t, ht⟩ := hpre
  have hsub : p <+: p' := by
    refine prefix_of_prefix_length_le (prefix_append p rest) ?_ hle
    refine ⟨t ++ 0x20 :: (version ++ tail), ?_⟩
    rw [← append_assoc, ht]
    exact (List.cons.inj hcancel).2.symm
  have hsub' : p ⊆ target := fun x hx => ht ▸ mem_append_left t (hsub.subset hx)
  exact ⟨⟨hm1, hm2⟩, fun h => ht1 (hsub' h), fun h => ht2 (hsub' h), fun h => hq (hsub.subset h)⟩

/-- `head` is exactly one HTTP/1.1 request head, with this method, path, query and these fields. -/
def OneRequestHead (head : Bytes) (method : HttpMethod) (path : Bytes) (query : QueryString)
    (headers : HttpHeaders) (maxHeaderSize : ℕ) : Prop :=
  ∃ k r, HttpResource.tryParse head = .done k r ∧ r.method = method ∧ r.path = path ∧
    r.query = query ∧ r.httpMajor = 1 ∧ r.httpMinor = 1 ∧
    ∃ b, readHeaders ⟨head.drop k, closedWire⟩ [] maxHeaderSize = some (headers, b) ∧
      Source.contents b = []

/-- No octet of the request separates anything in the head, and the path is not decoded twice. -/
structure RelaysPlainly (subpath : Bytes) (req : Request) : Prop where
  method : 0x20 ∉ req.resource.method.name ∧ LF ∉ req.resource.method.name
  path : 0x20 ∉ slashed subpath ∧ LF ∉ slashed subpath ∧ 0x3f ∉ slashed subpath
  literal : IsLiteral (slashed subpath)
  names : ∀ h ∈ relayable req.headers, IsFieldName h.name
  values : ∀ h ∈ keptFields req.headers, IsFieldValue h.value
  hostname : IsFieldValue req.hostname
  upgrade : wantsUpgrade req.headers = true → IsFieldValue ((req.headers.get (ascii "Upgrade")).getD [])

/-- **The head that is relayed** is one request head with what was meant exactly if the request is relayed plainly. -/
theorem relayHead_oneRequestHead (up : Upstream) (subpath : Bytes) (req : Request)
    (hq : ∃ raw, req.resource.query = QueryString.parse raw) (maxHeaderSize : ℕ) :
    OneRequestHead (relayHead up subpath req) req.resource.method (slashed subpath) req.resource.query
        (outHeaders up req) maxHeaderSize ↔ RelaysPlainly subpath req := by
  have hord : req.resource.query.Ordered := by
    obtain ⟨raw, hraw⟩ := hq
    rw [hraw]
    exact QueryString.ordered_parse raw
  -- what a plain request line is read as
  have hline : ∀ _ : 0x20 ∉ req.resource.method.name ∧ LF ∉ req.resource.method.name,
      0x20 ∉ slashed subpath ∧ LF ∉ slashed subpath ∧ 0x3f ∉ slashed subpath →
      HttpResource.tryParse (relayHead up subpath req) =
        .done ((relayLine subpath req).length + 2)
          { method := req.resource.method, rawPath := slashed subpath, query := req.resource.query
            path := urlDecode (slashed subpath) } := by
    rintro ⟨h₁, h₂⟩ ⟨h₃, h₄, h₅⟩
    obtain ⟨h₃, h₄⟩ := not_mem_target h₃ h₄ req.resource.query
    rw [relayHead, relayLine, buildRequestTarget, tryParse_requestLine h₁ h₂ h₃ h₄,
      setTarget_append _ h₅ hord]
  have hrest : (relayHead up subpath req).drop ((relayLine subpath req).length + 2) =
      (outHeaders up req).writeTo ++ [CR, LF] := drop_crlf _ _
  constructor
  · rintro ⟨k, r, hparse, hm, hp, -, -, -, hhead⟩
    have hsplit : relayHead up subpath req = req.resource.method.name ++ 0x20 :: (slashed subpath ++
        (req.resource.query.write 0x3f ++ ascii " HTTP/1.1" ++
          CR :: LF :: ((outHeaders up req).writeTo ++ [CR, LF]))) := by
      simp [relayHead, relayLine, buildRequestTarget]
    obtain ⟨hmethod, hpath⟩ := not_mem_of_tryParse (hsplit ▸ hparse) hm hp
    rw [hline hmethod hpath] at hparse
    cases hparse
    rw [hrest] at hhead
    obtain ⟨⟨hn, hv⟩, hh, hu⟩ := (forall_plain_outHeaders up req).mp
      ((readHeaders_writeTo_iff rfl _ _).mp hhead)
    exact ⟨hmethod, hpath, (urlDecode_eq_self_iff _).mp hp, hn, hv, hh, hu⟩
  · rintro ⟨hmethod, hpath, hlit, hn, hv, hh, hu⟩
    refine ⟨_, _, hline hmethod hpath, rfl, (urlDecode_eq_self_iff _).mpr hlit, rfl, rfl, rfl, ?_⟩
    rw [hrest]
    exact (readHeaders_writeTo_iff rfl _ _).mpr ((forall_plain_outHeaders up req).mpr ⟨⟨hn, hv⟩, hh, hu⟩)

theorem relayHead_oneRequestHead_query :
    OneRequestHead (relayHead localUpstream (ascii "/x") queryRequest) ⟨ascii "GET"⟩ (ascii "/x")
      (QueryString.parse (ascii "q=a%26b&r=1+2")) (outHeaders localUpstream queryRequest) 65536 :=
  (relayHead_oneRequestHead localUpstream (ascii "/x") queryRequest ⟨_, rfl⟩ 65536).mpr
    ⟨by decide, by decide, by decide, by decide +kernel, by decide +kernel, by decide, by decide⟩

def injectingLine : Bytes := ascii "GET /a%20HTTP/1.1%0D%0AX:%20b HTTP/1.1\r\n"

def injectingRequest : Request where
  resource := { method := ⟨ascii "GET"⟩, path := ascii "/a HTTP/1.1\r\nX: b",
                rawPath := ascii "/a%20HTTP/1.1%0D%0AX:%20b" }
  headers := [⟨ascii "Host", ascii "h"⟩]
  hostname := ascii "h"

/-- The decoded path is written as it is: the client ends the request line and adds a field. -/
theorem relayHead_injected :
    HttpResource.tryParse injectingLine = .done 40 injectingRequest.resource ∧
      relayHead localUpstream injectingRequest.resource.path injectingRequest =
        ascii "GET /a HTTP/1.1\r\nX: b HTTP/1.1\r\nHost: 127.0.0.1:80\r\nX-Forwarded-For: h\r\n" ++
          ascii "X-Forwarded-Host: h\r\nX-Forwarded-Proto: http\r\nConnection: close\r\n\r\n" ∧
      ¬OneRequestHead (relayHead localUpstream injectingRequest.resource.path injectingRequest)
        injectingRequest.resource.method (slashed injectingRequest.resource.path)
        injectingRequest.resource.query (outHeaders localUpstream injectingRequest) 65536 := by
  refine ⟨by decide +kernel, by decide +kernel, ?_⟩
  rintro ⟨k, r, hparse, hm, hp, -⟩
  have hsplit : relayHead localUpstream injectingRequest.resource.path injectingRequest =
      ascii "GET" ++ 0x20 :: (slashed injectingRequest.resource.path ++
        (relayHead localUpstream injectingRequest.resource.path injectingRequest).drop 21) := by
    decide +kernel
  obtain ⟨-, -, hlf, -⟩ := not_mem_of_tryParse (hsplit ▸ hparse) hm hp
  exact hlf (by decide +kernel)

end Nhttp.Server
