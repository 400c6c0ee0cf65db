import Nhttp.Protocol.UrlEncode
import Nhttp.Server.HeaderBlock
import Nhttp.Server.WriteResponse

/-!
# The request a reverse proxy sends

* `outHeaders`, `relayHead`, `relayBody`: what `reverse_proxy::on_handle` writes upstream.
* `outHeaders_eq`: the fields of the head, one group after the other.
* `getAll_outHeaders_te`, `getAll_outHeaders_cl`: its framing fields.
* **`query_read_back`**: the query of the target is parsed back.
-/

namespace Nhttp.Server

open Octets Reading Protocol Io List HttpHeaders

/-! ## What is written upstream -/

def hopByHop : List Bytes :=
  [ascii "Connection", ascii "Keep-Alive", ascii "Proxy-Authenticate", ascii "Proxy-Authorization",
    ascii "TE", ascii "Trailer", ascii "Transfer-Encoding", ascii "Upgrade"]

def isHopByHop (name : Bytes) : Bool := hopByHop.any fun h => headerNameEquals name h

def copyRelayableHeaders (src dst : HttpHeaders) : HttpHeaders :=
  src.foldl (fun dst h => if isHopByHop h.name then dst else dst.add h.name h.value) dst

def wantsUpgrade (headers : HttpHeaders) : Bool :=
  headers.isset (ascii "Upgrade") &&
    (headers.get (ascii "Connection")).any fun conn => headerValueContainsToken conn (ascii "upgrade")

def slashed (path : Bytes) : Bytes :=
  if path = [] then [0x2f] else if path.head? ≠ some 0x2f then 0x2f :: path else path

def buildRequestTarget (path : Bytes) (query : QueryString) : Bytes := slashed path ++ query.write 0x3f

/-- `upstream`, with the text of its endpoint. An address and a port have no line feed and no blank
in them. -/
structure Upstream where
  address : Bytes
  useTls : Bool := false
  isFieldValue : IsFieldValue address

def originalHasBody (headers : HttpHeaders) : Bool :=
  headers.isset (ascii "Content-Length") || headers.isset (ascii "Transfer-Encoding")

/-- `out_content_length`; `-1` is chunked. -/
def outContentLength (headers : HttpHeaders) : ℤ :=
  match headers.get (ascii "Content-Length") with
  | none => -1
  | some cl => (parseContentLength 0 cl).getD (-1)

def outHeaders (up : Upstream) (req : Request) : HttpHeaders :=
  let hs := (copyRelayableHeaders req.headers []).set (ascii "Host") up.address
  let hs := hs.add (ascii "X-Forwarded-For") (if req.hostname = [] then ascii "unknown" else req.hostname)
  let hs := hs.add (ascii "X-Forwarded-Host") req.hostname
  let hs := hs.add (ascii "X-Forwarded-Proto") (ascii "http")
  let hs :=
    if wantsUpgrade req.headers then
      (hs.set (ascii "Connection") (ascii "Upgrade")).set (ascii "Upgrade")
        ((req.headers.get (ascii "Upgrade")).getD [])
    else hs.set (ascii "Connection") (ascii "close")
  if originalHasBody req.headers then
    if 0 ≤ outContentLength req.headers then
      hs.set (ascii "Content-Length") (decimalDigits (outContentLength req.headers).toNat)
    else hs.set (ascii "Transfer-Encoding") (ascii "chunked")
  else hs

def relayLine (subpath : Bytes) (req : Request) : Bytes :=
  req.resource.method.name ++ 0x20 :: (buildRequestTarget subpath req.resource.query ++ ascii " HTTP/1.1")

/-- The head; `subpath` is what `subpath_of` returns. -/
def relayHead (up : Upstream) (subpath : Bytes) (req : Request) : Bytes :=
  relayLine subpath req ++ CR :: LF :: ((outHeaders up req).writeTo ++ [CR, LF])

/-- The octets after the head. -/
def relayBody {τ : Type} [Readable τ UInt8] (req : Request) (body : τ) : Bytes :=
  if originalHasBody req.headers then writeMessageBody body (outContentLength req.headers) else []

/-! ## The fields -/

def relayable (headers : HttpHeaders) : HttpHeaders := headers.filter fun h => !isHopByHop h.name

theorem copyRelayableHeaders_eq (src dst : HttpHeaders) :
    copyRelayableHeaders src dst = dst ++ relayable src := by
  induction src generalizing dst with
  | nil => simp [copyRelayableHeaders, relayable]
  | cons h src ih =>
    have hstep : copyRelayableHeaders (h :: src) dst =
        copyRelayableHeaders src (if isHopByHop h.name then dst else dst.add h.name h.value) := rfl
    rw [hstep, ih]
    by_cases hh : isHopByHop h.name = true
    · simp [relayable, hh]
    · simp [relayable, hh, add]

variable {name path : Bytes}

theorem isset_relayable (h : name ∈ hopByHop) (headers : HttpHeaders) :
    (relayable headers).isset name = false := by
  rw [isset, any_eq_false]
  intro x hx he
  obtain ⟨-, hhop⟩ := mem_filter.mp hx
  have : isHopByHop x.name = true := any_eq_true.mpr ⟨name, h, he⟩
  rw [this] at hhop
  cases hhop

theorem getAll_relayable (h : ∀ x ∈ hopByHop, x.length ≠ name.length)
    (headers : HttpHeaders) : (relayable headers).getAll name = headers.getAll name := by
  rw [getAll, getAll, relayable, filter_filter]
  refine congrArg _ (filter_congr fun x _ => ?_)
  by_cases hx : headerNameEquals x.name name = true
  · have hhop : isHopByHop x.name = false := by
      rw [isHopByHop, any_eq_false]
      intro y hy he
      exact h y hy ((length_eq_of_headerNameEquals he).symm.trans (length_eq_of_headerNameEquals hx))
    simp [hx, hhop]
  · simp [hx]

/-- The relayed fields, with the `Host` and the `Content-Length` set. -/
def relayedFields (up : Upstream) (headers : HttpHeaders) : HttpHeaders :=
  if 0 ≤ outContentLength headers then
    ((relayable headers).set (ascii "Host") up.address).set (ascii "Content-Length")
      (decimalDigits (outContentLength headers).toNat)
  else (relayable headers).set (ascii "Host") up.address

def forwardedFields (req : Request) : HttpHeaders :=
  [⟨ascii "X-Forwarded-For", if req.hostname = [] then ascii "unknown" else req.hostname⟩,
    ⟨ascii "X-Forwarded-Host", req.hostname⟩, ⟨ascii "X-Forwarded-Proto", ascii "http"⟩]

def connectionFields (headers : HttpHeaders) : HttpHeaders :=
  if wantsUpgrade headers then
    [⟨ascii "Connection", ascii "Upgrade"⟩, ⟨ascii "Upgrade", (headers.get (ascii "Upgrade")).getD []⟩]
  else [⟨ascii "Connection", ascii "close"⟩]

def codingFields (headers : HttpHeaders) : HttpHeaders :=
  if originalHasBody headers ∧ outContentLength headers < 0 then
    [⟨ascii "Transfer-Encoding", ascii "chunked"⟩]
  else []

variable (up : Upstream)

theorem set_behind (headers fs : HttpHeaders) (h : name ∈ hopByHop)
    (hl : name.length ≠ 4) (hfs : fs.isset name = false) (value : Bytes) :
    set ((relayable headers).set (ascii "Host") up.address ++ fs) name value =
      (relayable headers).set (ascii "Host") up.address ++ (fs ++ [⟨name, value⟩]) := by
  have hset : isset ((relayable headers).set (ascii "Host") up.address ++ fs) name = false := by
    rw [isset, any_append, Bool.or_eq_false_iff]
    refine ⟨?_, hfs⟩
    have hhost : ((relayable headers).set (ascii "Host") up.address).isset name =
        (relayable headers).isset name :=
      isset_set_of_length_ne up.address fun he => hl he.symm
    exact hhost.trans (isset_relayable h headers)
  rw [set_of_not_isset hset, add, append_assoc]

theorem isset_of_outContentLength {headers : HttpHeaders} (h : 0 ≤ outContentLength headers) :
    headers.isset (ascii "Content-Length") = true := by
  rw [isset_eq_true_iff]
  intro hnil
  rw [outContentLength, get_eq_head_getAll, hnil] at h
  exact absurd h (by decide)

theorem isset_relayable_contentLength (headers : HttpHeaders) :
    (relayable headers).isset (ascii "Content-Length") = headers.isset (ascii "Content-Length") := by
  rw [Bool.eq_iff_iff, isset_eq_true_iff, isset_eq_true_iff,
    getAll_relayable (by decide)]

theorem isset_forwardedFields (h : name ∈ hopByHop) (req : Request) :
    (forwardedFields req).isset name = false := by
  have hnames : ∀ x ∈ hopByHop, ∀ y ∈ [ascii "X-Forwarded-For", ascii "X-Forwarded-Host",
      ascii "X-Forwarded-Proto"], headerNameEquals y x = false := by decide
  rw [isset, any_eq_false]
  intro f hf
  rw [hnames name h f.name]
  · exact Bool.false_ne_true
  · have := mem_map_of_mem (f := HttpHeader.name) hf
    simpa [forwardedFields] using this

theorem set_connection (req : Request) :
    (if wantsUpgrade req.headers then
      (set ((relayable req.headers).set (ascii "Host") up.address ++ forwardedFields req)
        (ascii "Connection") (ascii "Upgrade")).set (ascii "Upgrade")
        ((req.headers.get (ascii "Upgrade")).getD [])
    else set ((relayable req.headers).set (ascii "Host") up.address ++ forwardedFields req)
    (ascii "Connection") (ascii "close")) = (relayable req.headers).set (ascii "Host") up.address ++
      (forwardedFields req ++ connectionFields req.headers) := by
  have hc := isset_forwardedFields (show ascii "Connection" ∈ hopByHop by decide) req
  have hu := isset_forwardedFields (show ascii "Upgrade" ∈ hopByHop by decide) req
  have hu' : isset (forwardedFields req ++ [⟨ascii "Connection", ascii "Upgrade"⟩])
      (ascii "Upgrade") = false := by
    rw [isset, any_append, Bool.or_eq_false_iff]
    exact ⟨hu, by decide⟩
  unfold connectionFields
  split_ifs
  · rw [set_behind up _ _ (by decide) (by decide) hc, set_behind up _ _ (by decide) (by decide) hu']
    simp
  · rw [set_behind up _ _ (by decide) (by decide) hc]

theorem isset_connectionFields (headers : HttpHeaders) :
    (connectionFields headers).isset (ascii "Transfer-Encoding") = false := by
  unfold connectionFields
  split_ifs <;> rfl

theorem outHeaders_eq (req : Request) :
    outHeaders up req = relayedFields up req.headers ++
      (forwardedFields req ++ connectionFields req.headers ++ codingFields req.headers) := by
  have hadd : ((((relayable req.headers).set (ascii "Host") up.address).add (ascii "X-Forwarded-For")
      (if req.hostname = [] then ascii "unknown" else req.hostname)).add
        (ascii "X-Forwarded-Host") req.hostname).add (ascii "X-Forwarded-Proto") (ascii "http") =
      (relayable req.headers).set (ascii "Host") up.address ++ forwardedFields req := by
    simp [add, forwardedFields]
  unfold outHeaders
  dsimp only
  rw [copyRelayableHeaders_eq, nil_append, hadd, set_connection, relayedFields, codingFields]
  by_cases hb : originalHasBody req.headers = true
  · rw [if_pos hb]
    by_cases hcl : 0 ≤ outContentLength req.headers
    · have hset : ((relayable req.headers).set (ascii "Host") up.address).isset
          (ascii "Content-Length") = true := by
        rw [isset_set_of_length_ne _ (by decide), isset_relayable_contentLength]
        exact isset_of_outContentLength hcl
      rw [if_pos hcl, if_pos hcl, if_neg (by omega), append_nil, set_append hset]
    · have hte : isset (forwardedFields req ++ connectionFields req.headers)
          (ascii "Transfer-Encoding") = false := by
        rw [isset, any_append, Bool.or_eq_false_iff]
        exact ⟨isset_forwardedFields (by decide) req, isset_connectionFields _⟩
      rw [if_neg hcl, if_neg hcl, if_pos ⟨hb, by omega⟩, set_behind up _ _ (by decide) (by decide) hte]
  · have hcl : ¬0 ≤ outContentLength req.headers := by
      intro hcl
      rw [originalHasBody, isset_of_outContentLength hcl] at hb
      exact hb rfl
    rw [if_neg hb, if_neg hcl, if_neg fun h => hb h.1, append_nil]

/-! ## Framing fields -/

theorem getAll_outHeaders_te (req : Request) :
    (outHeaders up req).getAll (ascii "Transfer-Encoding") =
      if originalHasBody req.headers ∧ outContentLength req.headers < 0 then [ascii "chunked"] else [] := by
  have hrel : (relayedFields up req.headers).getAll (ascii "Transfer-Encoding") = [] := by
    have h := getAll_eq_nil_iff.mpr
      (isset_relayable (show ascii "Transfer-Encoding" ∈ hopByHop by decide) req.headers)
    unfold relayedFields
    split_ifs
    · rw [getAll_set_of_length_ne _ _ _ (by decide),
        getAll_set_of_length_ne _ _ _ (by decide), h]
    · rw [getAll_set_of_length_ne _ _ _ (by decide), h]
  rw [outHeaders_eq, getAll_append, getAll_append, getAll_append, hrel,
    getAll_eq_nil_iff.mpr (isset_forwardedFields (by decide) req),
    getAll_eq_nil_iff.mpr (isset_connectionFields _), codingFields]
  split_ifs <;> rfl

theorem getAll_outHeaders_cl (req : Request) :
    (outHeaders up req).getAll (ascii "Content-Length") =
      if 0 ≤ outContentLength req.headers then
        decimalDigits (outContentLength req.headers).toNat ::
          (req.headers.getAll (ascii "Content-Length")).tail
      else req.headers.getAll (ascii "Content-Length") := by
  have hrest : getAll (forwardedFields req ++ connectionFields req.headers ++
      codingFields req.headers) (ascii "Content-Length") = [] := by
    unfold forwardedFields connectionFields codingFields
    split_ifs <;> rfl
  rw [outHeaders_eq, getAll_append, hrest, append_nil, relayedFields]
  split_ifs
  · rw [getAll_set_self, getAll_set_of_length_ne _ _ _ (by decide),
      getAll_relayable (by decide)]
  · rw [getAll_set_of_length_ne _ _ _ (by decide), getAll_relayable (by decide)]

/-! ## Targets -/

def queryText (target : Bytes) : Bytes :=
  match cutAt 0x3f target with
  | none => []
  | some (_, raw) => raw

theorem mem_slashed {c : UInt8} (hc : c ≠ 0x2f) : c ∈ slashed path ↔ c ∈ path := by
  unfold slashed
  split_ifs with h1 h2
  · rw [h1]
    simp [hc]
  · simp [hc]
  · rfl

theorem queryText_buildRequestTarget (hp : 0x3f ∉ path) (q : QueryString) :
    queryText (buildRequestTarget path q) = (q.write 0x3f).drop 1 := by
  have hslashed : 0x3f ∉ slashed path := mt (mem_slashed (by decide)).mp hp
  unfold queryText buildRequestTarget
  cases q with
  | nil => rw [QueryString.write, append_nil, cutAt_eq_none.mpr hslashed, drop_nil]
  | cons e q =>
    rw [QueryString.write, cons_append, cutAt_append_cons hslashed, drop_succ_cons, drop_zero]

/-- **The query of a built target is parsed back**, whatever octets its keys and values have. -/
theorem query_read_back {q : QueryString} (hq : q.Ordered) {path : Bytes} (hp : 0x3f ∉ path) :
    QueryString.parse (queryText (buildRequestTarget path q)) = q ∧ ∀ s : Bytes, urlDecode (urlEncode s) = s := by
  rw [queryText_buildRequestTarget hp]
  exact ⟨QueryString.parse_write hq 0x3f, urlDecode_urlEncode⟩

/-- An empty key, and separators inside a key and a value. -/
theorem query_read_back_separators :
    QueryString.parse (queryText (buildRequestTarget (ascii "a/b")
        [([], []), (ascii "a&b", ascii "c=d+%?")])) = [([], []), (ascii "a&b", ascii "c=d+%?")] :=
  (query_read_back (by decide) (by decide)).1

/-! ## Samples -/

def localUpstream : Upstream := { address := ascii "127.0.0.1:80", isFieldValue := by decide }

def queryRequest : Request where
  resource := { method := ⟨ascii "GET"⟩, path := ascii "/api/x", rawPath := ascii "/api/x",
                query := QueryString.parse (ascii "q=a%26b&r=1+2") }
  headers := [⟨ascii "Host", ascii "h"⟩, ⟨ascii "Accept", ascii "*/*"⟩, ⟨ascii "Connection", ascii "close"⟩]
  hostname := ascii "h"

end Nhttp.Server
