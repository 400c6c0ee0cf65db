import Nhttp.Io.MemoryStream
import Nhttp.Protocol.HttpDate
import Nhttp.Server.Extensions.StaticContent
import Nhttp.Server.Message

/-!
# Conditional requests and ranges

The engine behind the extensions that serve files.

* `Served`: a response whose body is the content or a window of it.
* `serveStreamConditionally`: the engine, in the order of the source.
* `Preconditions`, `IfRangeHolds`: what a request asks of a representation.
* **`unrecognised_range_iff`**: when a `Range` field that is no range of octets is ignored.
-/

namespace Nhttp.Server

open Octets Reading Protocol Io Option HttpHeaders

/-! ## Entity tags -/

/-- `%llx`. -/
def hexNumeral (n : ℕ) : Bytes := if n = 0 then ascii "0" else hexDigits n

def makeEtag (mtime size : ℤ) : Bytes :=
  ascii "\"nh-" ++ hexNumeral (mtime % 2 ^ 64).toNat ++ ascii "-" ++ hexNumeral (size % 2 ^ 64).toNat ++ ascii "\""

/-- A token without the spaces around it; tabs stay. -/
def trimSpaces (tok : Bytes) : Bytes := (tok.dropWhile (· = 0x20)).rdropWhile (· = 0x20)

theorem length_lt_of_cutAt {c : UInt8} {bs xs ys : Bytes} (h : cutAt c bs = some (xs, ys)) :
    ys.length < bs.length := by
  rw [(cutAt_eq_some.mp h).1, List.length_append, List.length_cons]
  omega

/-- `etag_list_contains`: nothing is looked for behind a comma at the end. -/
def etagListContains (list etag : Bytes) : Bool :=
  if list = [] then false
  else match h : cutAt 0x2c list with
    | none => trimSpaces list = etag
    | some (tok, rest) =>
      have : rest.length < list.length := length_lt_of_cutAt h
      trimSpaces tok = etag || etagListContains rest etag
termination_by list.length

/-! ## Responses -/

/-- `std::to_string` of a number with a sign. -/
def decimalInt (z : ℤ) : Bytes := if z < 0 then 0x2d :: decimalDigits z.natAbs else decimalDigits z.toNat

inductive ServedBody (σ : Type) where
  | whole (content : σ)
  | range (ranged : RangeStream σ)

/-- `response`, with its body as a stream. -/
structure Served (σ : Type) where
  status : ℕ := 200
  headers : HttpHeaders := []
  body : Option (ServedBody σ) := none
  contentLength : ℤ := 0

namespace ServedBody

variable {σ : Type}

def getLength [IoStream σ] : ServedBody σ → ℤ
  | .whole content => IoStream.getLength content
  | .range ranged => ranged.getLength

variable [IoStream σ] [Source σ UInt8]

def read : ServedBody σ → ℕ → Bytes × ServedBody σ
  | .whole content, n => ((Readable.read content n).1, .whole (Readable.read content n).2)
  | .range ranged, n => ((Readable.read ranged n).1, .range (Readable.read ranged n).2)

instance : Readable (ServedBody σ) UInt8 where
  read := read
  weight
    | .whole content => Readable.weight content
    | .range ranged => Readable.weight ranged
  weight_read
    | .whole content, n, h => Readable.weight_read content n h
    | .range ranged, n, h => Readable.weight_read ranged n h

theorem yields_range {ranged : RangeStream σ} {m : ℕ} {xs : Bytes} (h : Yields m ranged xs) :
    Yields m (ServedBody.range ranged) xs := by
  refine ⟨fun body xs => ∃ r, body = .range r ∧ Yields m r xs, ⟨ranged, rfl, h⟩, ?_⟩
  rintro _ xs n ⟨r, rfl, hr⟩ hn hm
  obtain ⟨hlen, hnil, ys, happ, hr'⟩ := hr.read hn hm
  exact ⟨hlen, hnil, ys, happ, _, rfl, hr'⟩

end ServedBody

namespace Served

variable {σ : Type}

/-- `make_response` of a status. -/
def ofStatus (statusCode : ℕ) : Served σ := { status := statusCode }

/-- `make_response` of a stream. -/
def ofStream [IoStream σ] (body : ServedBody σ) (mime : Bytes) (length : ℤ) : Served σ where
  headers := HttpHeaders.set [] (ascii "Content-Type") mime
  body := some body
  contentLength := if 0 ≤ length then length else body.getLength

def setHeader (r : Served σ) (name value : Bytes) : Served σ := { r with headers := r.headers.set name value }

end Served

def Request.isHead (req : Request) : Bool := req.resource.method.name = ascii "HEAD"

def Request.isGet (req : Request) : Bool := req.resource.method.name = ascii "GET"

/-- What `serve_stream_conditionally` does to each of its responses. -/
def finalize {σ : Type} (req : Request) (mtime : ℤ) (etag : Bytes) (r : Served σ) : Served σ :=
  let r := (((r.setHeader (ascii "Accept-Ranges") (ascii "bytes")).setHeader (ascii "ETag") etag).setHeader
    (ascii "Last-Modified") (formatHttpDate mtime)).setHeader (ascii "Cache-Control")
      (if req.headers.isset (ascii "Authorization") then ascii "private, must-revalidate"
        else ascii "public, must-revalidate")
  if req.isHead then { r with body := none } else r

/-! ## The engine -/

def preconditionStatus (req : Request) (mtime : ℤ) (etag : Bytes) : Option ℕ :=
  if (req.headers.get (ascii "If-Match")).any fun v => v ≠ ascii "*" && !etagListContains v etag then some 412
  else match req.headers.get (ascii "If-None-Match") with
    | some v =>
      if v = ascii "*" || etagListContains v etag then if req.isGet || req.isHead then some 304 else some 412
      else none
    | none =>
      match req.headers.get (ascii "If-Modified-Since") with
      | some v => if parseHttpDate v ≠ -1 ∧ mtime ≤ parseHttpDate v then some 304 else none
      | none => none

/-- `if_range_ok`, for the value of an `If-Range` field. -/
def ifRangeOk (v : Bytes) (mtime : ℤ) (etag : Bytes) : Bool :=
  if v.head? = some 0x22 then v = etag else parseHttpDate v ≠ -1 ∧ mtime ≤ parseHttpDate v

/-- The value of the `Range` field, if it is to be used. -/
def rangeToUse (req : Request) (mtime : ℤ) (etag : Bytes) : Option Bytes :=
  (req.headers.get (ascii "Range")).filter fun _ =>
    (req.headers.get (ascii "If-Range")).all fun v => ifRangeOk v mtime etag

/-- The value of a `Content-Range` field. -/
def contentRange (b e size : ℤ) : Bytes :=
  ascii "bytes " ++ decimalInt b ++ ascii "-" ++ decimalInt e ++ ascii "/" ++ decimalInt size

section serve

variable {σ : Type} [IoStream σ]

/-- The response to a range. `present` is not looked at. -/
def rangeResponse (content : σ) (size : ℤ) (mime : Bytes) (rr : RangeRequest) : Served σ :=
  if rr.satisfiable = false then
    (Served.ofStatus 416).setHeader (ascii "Content-Range") (ascii "bytes */" ++ decimalInt size)
  else
    let ranged := RangeStream.new content rr.begin (rr.last + 1)
    { Served.ofStream (.range ranged) mime (rr.last - rr.begin + 1) with status := 206 }.setHeader
      (ascii "Content-Range") (contentRange rr.begin rr.last size)

def serveStreamConditionally (req : Request) (content : σ) (size mtime : ℤ) (mime etag : Bytes) : Served σ :=
  match preconditionStatus req mtime etag with
  | some status => finalize req mtime etag (Served.ofStatus status)
  | none =>
    match rangeToUse req mtime etag with
    | some v => finalize req mtime etag (rangeResponse content size mime (parseRangeHeader (some v) size))
    | none => finalize req mtime etag (Served.ofStream (.whole content) mime size)

/-! ## Which answer is given -/

/-- What is served has one of the tags of `If-Match` and none of `If-None-Match`, and without such a list has changed
since `If-Modified-Since`. -/
structure Preconditions (req : Request) (mtime : ℤ) (etag : Bytes) : Prop where
  ifMatch : ∀ v ∈ req.headers.get (ascii "If-Match"), v = ascii "*" ∨ etagListContains v etag = true
  ifNoneMatch : ∀ v ∈ req.headers.get (ascii "If-None-Match"), v ≠ ascii "*" ∧ etagListContains v etag = false
  ifModifiedSince : req.headers.get (ascii "If-None-Match") = none →
    ∀ v ∈ req.headers.get (ascii "If-Modified-Since"), parseHttpDate v = -1 ∨ parseHttpDate v < mtime

/-- An `If-Range` field names the tag of what is served, or a date since which that has not changed. -/
def IfRangeHolds (req : Request) (mtime : ℤ) (etag : Bytes) : Prop :=
  ∀ v ∈ req.headers.get (ascii "If-Range"), ifRangeOk v mtime etag = true

variable {req : Request} {content : σ} {size mtime : ℤ} {mime etag : Bytes}

theorem ifMatch_passes
    (h : ∀ v ∈ req.headers.get (ascii "If-Match"), v = ascii "*" ∨ etagListContains v etag = true) :
    ¬(req.headers.get (ascii "If-Match")).any (fun v => v ≠ ascii "*" && !etagListContains v etag) = true := by
  rw [any_eq_true]
  rintro ⟨v, hv, hno⟩
  obtain rfl | hc := h v hv
  · simp at hno
  · simp [hc] at hno

theorem preconditionStatus_eq_none : preconditionStatus req mtime etag = none ↔ Preconditions req mtime etag := by
  unfold preconditionStatus
  constructor
  · intro h
    split at h
    · cases h
    rename_i hm
    have hmatch : ∀ v ∈ req.headers.get (ascii "If-Match"), v = ascii "*" ∨ etagListContains v etag = true := by
      intro v hv
      rw [mem_def.mp hv] at hm
      simpa [or_iff_not_imp_left] using hm
    split at h
    · next v hv =>
      refine ⟨hmatch, fun w hw => ?_, fun hnone => absurd (hv.symm.trans hnone) (some_ne_none v)⟩
      obtain rfl := Option.some.inj (hv.symm.trans hw)
      split_ifs at h with hn
      simpa using hn
    · next hnone =>
      refine ⟨hmatch, fun w hw => absurd (hnone.symm.trans hw).symm (some_ne_none w), fun _ w hw => ?_⟩
      rw [mem_def.mp hw] at h
      dsimp only at h
      split_ifs at h with hd
      omega
  · rintro ⟨hmatch, hnone, hsince⟩
    rw [if_neg (ifMatch_passes hmatch)]
    split
    · next v hv =>
      obtain ⟨h1, h2⟩ := hnone v hv
      exact if_neg (by simp [h1, h2])
    · next hn =>
      split
      · next v hv =>
        have := hsince hn v hv
        exact if_neg (by omega)
      · rfl

theorem preconditionStatus_eq_some {status : ℕ} (h : preconditionStatus req mtime etag = some status) :
    status = 304 ∨ status = 412 := by
  unfold preconditionStatus at h
  split at h
  · exact .inr (Option.some.inj h).symm
  · split at h
    · split_ifs at h
      · exact .inl (Option.some.inj h).symm
      · exact .inr (Option.some.inj h).symm
    · split at h
      · split_ifs at h
        exact .inl (Option.some.inj h).symm
      · cases h

/-- Without a failing `If-Match`, a request for the content gets no other answer than 304. -/
theorem preconditionStatus_of_isGet (hget : req.isGet = true ∨ req.isHead = true)
    (hmatch : ∀ v ∈ req.headers.get (ascii "If-Match"), v = ascii "*" ∨ etagListContains v etag = true) {status : ℕ}
    (h : preconditionStatus req mtime etag = some status) : status = 304 := by
  unfold preconditionStatus at h
  split at h
  · next hany => exact absurd hany (ifMatch_passes hmatch)
  · split at h
    · rw [if_pos (show (req.isGet || req.isHead) = true by simpa using hget)] at h
      split_ifs at h
      exact (Option.some.inj h).symm
    · split at h
      · split_ifs at h
        exact (Option.some.inj h).symm
      · cases h

/-- An `If-None-Match` field is answered with 304 only if it lists the tag. -/
theorem preconditionStatus_ne_of_ifNoneMatch {tag : Bytes} (hv : req.headers.get (ascii "If-None-Match") = some tag)
    (hstar : tag ≠ ascii "*") (hc : etagListContains tag etag = false) : preconditionStatus req mtime etag ≠ some 304 := by
  unfold preconditionStatus
  rw [hv]
  dsimp only
  rw [if_neg (show ¬(decide (tag = ascii "*") || etagListContains tag etag) = true by simp [hstar, hc])]
  split
  · decide
  · exact (some_ne_none 304).symm

theorem serve_of_not_preconditions (h : ¬Preconditions req mtime etag) (content : σ) (size : ℤ) (mime : Bytes) :
    ∃ status, (status = 304 ∨ status = 412) ∧ preconditionStatus req mtime etag = some status ∧
      serveStreamConditionally req content size mtime mime etag = finalize req mtime etag (Served.ofStatus status) := by
  cases hs : preconditionStatus req mtime etag with
  | none => exact absurd (preconditionStatus_eq_none.mp hs) h
  | some status =>
    refine ⟨status, preconditionStatus_eq_some hs, rfl, ?_⟩
    unfold serveStreamConditionally
    rw [hs]

theorem serve_of_range (h : Preconditions req mtime etag) {v : Bytes} (hv : req.headers.get (ascii "Range") = some v)
    (hr : IfRangeHolds req mtime etag) (content : σ) (size : ℤ) (mime : Bytes) :
    serveStreamConditionally req content size mtime mime etag =
      finalize req mtime etag (rangeResponse content size mime (parseRangeHeader (some v) size)) := by
  have huse : rangeToUse req mtime etag = some v := by
    have hall : (req.headers.get (ascii "If-Range")).all (fun w => ifRangeOk w mtime etag) = true :=
      all_eq_true_iff_get _ _ |>.mpr fun hi => hr _ (get_mem hi)
    rw [rangeToUse, hv, filter_some, if_pos hall]
  unfold serveStreamConditionally
  rw [preconditionStatus_eq_none.mpr h, huse]

theorem serve_of_no_range (h : Preconditions req mtime etag)
    (hr : req.headers.get (ascii "Range") = none ∨ ¬IfRangeHolds req mtime etag) (content : σ) (size : ℤ)
    (mime : Bytes) :
    serveStreamConditionally req content size mtime mime etag =
      finalize req mtime etag (Served.ofStream (.whole content) mime size) := by
  have huse : rangeToUse req mtime etag = none := by
    obtain hn | hr := hr
    · rw [rangeToUse, hn, filter_none]
    · refine filter_eq_none_iff.mpr fun v _ hall => hr fun w hw => ?_
      rw [mem_def.mp hw] at hall
      simpa using hall
  unfold serveStreamConditionally
  rw [preconditionStatus_eq_none.mpr h, huse]

theorem status_finalize {σ : Type} (req : Request) (mtime : ℤ) (etag : Bytes) (r : Served σ) :
    (finalize req mtime etag r).status = r.status := by
  unfold finalize
  cases req.isHead with
  | false => rfl
  | true => rfl

theorem status_of_preconditions (h : Preconditions req mtime etag) (content : σ) (size : ℤ) (mime : Bytes) :
    (serveStreamConditionally req content size mtime mime etag).status = 200 ∨
      (serveStreamConditionally req content size mtime mime etag).status = 206 ∨
      (serveStreamConditionally req content size mtime mime etag).status = 416 := by
  by_cases hr : req.headers.get (ascii "Range") = none ∨ ¬IfRangeHolds req mtime etag
  · rw [serve_of_no_range h hr, status_finalize]
    exact .inl rfl
  · obtain ⟨hv, hr⟩ := not_or.mp hr
    obtain ⟨v, hv⟩ := ne_none_iff_exists'.mp hv
    rw [serve_of_range h hv (not_not.mp hr), status_finalize, rangeResponse]
    split_ifs
    · exact .inr (.inr rfl)
    · exact .inr (.inl rfl)

/-! ## Fields that are no range of octets -/

/-- A value `parse_range_header` takes for a range of a representation that is not empty. -/
def Recognised (v : Bytes) (size : ℤ) : Prop :=
  0 < size ∧ v.take 6 = ascii "bytes=" ∧ 0x2d ∈ (v.drop 6).takeWhile (· ≠ 0x2c)

instance (v : Bytes) (size : ℤ) : Decidable (Recognised v size) := inferInstanceAs (Decidable (_ ∧ _ ∧ _))

theorem parseRangeHeader_of_not_recognised {v : Bytes} (h : ¬Recognised v size) :
    parseRangeHeader (some v) size = {} := by
  unfold parseRangeHeader
  dsimp only
  split_ifs with hv
  · rfl
  · have hdash : 0x2d ∉ (v.drop 6).takeWhile (· ≠ 0x2c) := by
      intro hd
      simp only [not_or, not_not] at hv
      exact h ⟨by omega, hv.2, hd⟩
    rw [cutAt_eq_none.mpr hdash]

/-- The request without its `Range` fields. -/
def withoutRange (req : Request) : Request :=
  { req with headers := req.headers.filter fun h => !headerNameEquals h.name (ascii "Range") }

theorem getAll_withoutRange (req : Request) {name : Bytes} (h : name.length ≠ 5) :
    (withoutRange req).headers.getAll name = req.headers.getAll name := by
  unfold withoutRange getAll
  rw [List.filter_filter]
  congr 2
  funext x
  by_cases hx : headerNameEquals x.name name = true
  · have : headerNameEquals x.name (ascii "Range") = false :=
      headerNameEquals_of_length_ne fun he => h ((length_eq_of_headerNameEquals hx).symm.trans he)
    rw [hx, this]
    rfl
  · rw [Bool.eq_false_iff.mpr hx, Bool.false_and]

theorem get_withoutRange (req : Request) {name : Bytes} (h : name.length ≠ 5) :
    (withoutRange req).headers.get name = req.headers.get name := by
  rw [get_eq_head_getAll, get_eq_head_getAll, getAll_withoutRange req h]

theorem get_range_withoutRange (req : Request) : (withoutRange req).headers.get (ascii "Range") = none := by
  unfold withoutRange HttpHeaders.get
  simp

theorem preconditionStatus_withoutRange (req : Request) (mtime : ℤ) (etag : Bytes) :
    preconditionStatus (withoutRange req) mtime etag = preconditionStatus req mtime etag := by
  unfold preconditionStatus
  rw [get_withoutRange req (by decide), get_withoutRange req (by decide), get_withoutRange req (by decide)]
  rfl

theorem finalize_withoutRange {σ : Type} (req : Request) (mtime : ℤ) (etag : Bytes) (r : Served σ) :
    finalize (withoutRange req) mtime etag r = finalize req mtime etag r := by
  have hauth : (withoutRange req).headers.isset (ascii "Authorization") = req.headers.isset (ascii "Authorization") := by
    rw [Bool.eq_iff_iff, isset_eq_true_iff, isset_eq_true_iff,
      getAll_withoutRange req (by decide)]
  unfold finalize
  rw [hauth]
  rfl

/-- What is served if the request asks for no range, or `If-Range` does not allow one. -/
theorem serve_withoutRange (h : ¬(Preconditions req mtime etag ∧ IfRangeHolds req mtime etag)) (content : σ)
    (size : ℤ) (mime : Bytes) :
    serveStreamConditionally (withoutRange req) content size mtime mime etag =
      serveStreamConditionally req content size mtime mime etag := by
  by_cases hpre : Preconditions req mtime etag
  · have hpre' : Preconditions (withoutRange req) mtime etag := by
      rwa [← preconditionStatus_eq_none, preconditionStatus_withoutRange, preconditionStatus_eq_none]
    rw [serve_of_no_range hpre (.inr fun hr => h ⟨hpre, hr⟩),
      serve_of_no_range hpre' (.inl (get_range_withoutRange req)), finalize_withoutRange]
  · obtain ⟨status, -, hs, hserve⟩ := serve_of_not_preconditions hpre content size mime
    rw [hserve, serveStreamConditionally, preconditionStatus_withoutRange, hs]
    exact finalize_withoutRange req mtime etag _

theorem status_withoutRange_ne (req : Request) (content : σ) (size mtime : ℤ) (mime etag : Bytes) :
    (serveStreamConditionally (withoutRange req) content size mtime mime etag).status ≠ 206 := by
  by_cases hpre : Preconditions (withoutRange req) mtime etag
  · rw [serve_of_no_range hpre (.inl (get_range_withoutRange req)), status_finalize]
    exact show (200 : ℕ) ≠ 206 by decide
  · obtain ⟨status, hstatus, -, hserve⟩ := serve_of_not_preconditions hpre content size mime
    rw [hserve, status_finalize]
    change status ≠ 206
    omega

/-- **Fields that are no range.** Such a `Range` field is ignored exactly if the preconditions do not hold or an
`If-Range` field does not allow a range. -/
theorem unrecognised_range_iff (req : Request) (content : σ) (size mtime : ℤ) (mime etag : Bytes) (v : Bytes)
    (hv : req.headers.get (ascii "Range") = some v) (hun : ¬Recognised v size) :
    serveStreamConditionally req content size mtime mime etag =
        serveStreamConditionally (withoutRange req) content size mtime mime etag ↔
      ¬(Preconditions req mtime etag ∧ IfRangeHolds req mtime etag) := by
  refine ⟨fun heq hreach => ?_, fun h => (serve_withoutRange h content size mime).symm⟩
  -- the defaults of the parser pass for the range from 0 to 0
  have hserve := serve_of_range hreach.1 hv hreach.2 content size mime
  rw [parseRangeHeader_of_not_recognised hun] at hserve
  have hstatus : (serveStreamConditionally req content size mtime mime etag).status = 206 := by
    rw [hserve, status_finalize]
    rfl
  exact status_withoutRange_ne req content size mtime mime etag (heq ▸ hstatus)

end serve

/-- A `GET` request with these fields. -/
def getWith (headers : HttpHeaders) : Request where
  resource := { method := ⟨ascii "GET"⟩ }
  headers := headers
  hostname := []

/-- A range of items is ignored where the response is that nothing has changed. -/
theorem unrecognised_range_items :
    serveStreamConditionally
        (getWith [⟨ascii "Range", ascii "items=0-1"⟩, ⟨ascii "If-None-Match", ascii "*"⟩])
        helloStream 5 0 (ascii "text/plain") (makeEtag 0 5) =
      serveStreamConditionally
        (withoutRange (getWith [⟨ascii "Range", ascii "items=0-1"⟩, ⟨ascii "If-None-Match", ascii "*"⟩]))
        helloStream 5 0 (ascii "text/plain") (makeEtag 0 5) :=
  (unrecognised_range_iff _ _ _ _ _ _ (ascii "items=0-1") rfl (by decide)).mpr
    fun h => (h.1.ifNoneMatch (ascii "*") rfl).1 rfl

/-- A range of items is answered with the first octet of the content, which an empty file does not have. -/
theorem unrecognised_range_served :
    serveStreamConditionally (getWith [⟨ascii "Range", ascii "items=0-1"⟩])
        helloStream 5 0 (ascii "text/plain") (makeEtag 0 5) ≠
      serveStreamConditionally (withoutRange (getWith [⟨ascii "Range", ascii "items=0-1"⟩]))
        helloStream 5 0 (ascii "text/plain") (makeEtag 0 5) ∧
    (serveStreamConditionally (getWith [⟨ascii "Range", ascii "items=0-1"⟩])
      helloStream 5 0 (ascii "text/plain") (makeEtag 0 5)).status = 206 ∧
    (serveStreamConditionally (withoutRange (getWith [⟨ascii "Range", ascii "items=0-1"⟩]))
      helloStream 5 0 (ascii "text/plain") (makeEtag 0 5)).status = 200 ∧
    (serveStreamConditionally (getWith [⟨ascii "Range", ascii "bytes=0-1"⟩])
      ({ data := [] } : MemoryStream) 0 0 (ascii "text/plain") (makeEtag 0 0)).contentLength = 1 ∧
    ((serveStreamConditionally (getWith [⟨ascii "Range", ascii "bytes=0-1"⟩])
      ({ data := [] } : MemoryStream) 0 0 (ascii "text/plain") (makeEtag 0 0)).body.map ServedBody.getLength) =
        some 0 := by
  refine ⟨fun h => ?_, rfl, rfl, rfl, rfl⟩
  have : (206 : ℕ) = 200 := congrArg Served.status h
  omega

end Nhttp.Server
