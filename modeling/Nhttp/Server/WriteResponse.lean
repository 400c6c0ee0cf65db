import Nhttp.Protocol.HttpDate
import Nhttp.Server.Framing
import Nhttp.Server.HeaderBlock
import Nhttp.Server.SendFile

/-!
# Writing a response

* `responseHeaders`, `writeResponse`: the octets that `connection::write_response` writes.
* `responseRead`: the fields of the head and the octets after it, as they are read out of these octets.
* **`writeResponse_framing`**: when the head has exactly one framing field.
* **`writeResponse_announced`**: when the octets after the head are the body the head announces.
-/

namespace Nhttp.Server

open Octets Reading Protocol HttpHeaders Io Slices

/-! ## The head and the body -/

def Response.useChunked (resp : Response) : Bool := resp.body.isSome && decide (resp.contentLength < 0)

/-- The fields of a response with `Server`, `Date` and `Connection`. -/
def commonHeaders (serverHeaderValue date : Bytes) (headers : HttpHeaders) (keepAlive : Bool) :
    HttpHeaders :=
  let hs := if serverHeaderValue ≠ [] ∧ ¬headers.isset (ascii "Server") then
      headers.set (ascii "Server") serverHeaderValue
    else headers
  let hs := hs.set (ascii "Date") date
  hs.set (ascii "Connection") (ascii (if keepAlive then "keep-alive" else "close"))

/-- The fields `write_response` sends, with the values of `server_header_value` and of the date. -/
def responseHeaders (serverHeaderValue date : Bytes) (resp : Response) (keepAlive : Bool) :
    HttpHeaders :=
  let hs := commonHeaders serverHeaderValue date resp.headers keepAlive
  if resp.useChunked then hs.set (ascii "Transfer-Encoding") (ascii "chunked")
  else hs.set (ascii "Content-Length") (decimalDigits (max 0 resp.contentLength).toNat)

/-- The wire to the client: whether it is a plain socket, and what `sendfile` gets into it at an offset. -/
structure ClientWire where
  plainSocket : Bool
  room : ℕ → ℕ

inductive ResponseBody (τ : Type)
  | file (f : FileStream)
  | stream (s : τ)

section write

variable {τ : Type} [Readable τ UInt8]

/-- `write_message_body`. -/
def ResponseBody.write (wire : ClientWire) (contentLength : ℤ) : ResponseBody τ → Bytes
  | .file f => writeFileBody f wire.room wire.plainSocket contentLength
  | .stream s => writeMessageBody s contentLength

/-- `connection::write_response`, at the time `now`. -/
def writeResponse (wire : ClientWire) (serverHeaderValue : Bytes) (now : ℤ) (resp : Response) (body : ResponseBody τ)
    (keepAlive : Bool) : Bytes :=
  if resp.upgradeHandler then writeHead resp.status resp.headers
  else
    let head := writeHead resp.status (responseHeaders serverHeaderValue (formatHttpDate now) resp keepAlive)
    if resp.body.isNone then head
    else head ++ body.write wire (if resp.useChunked then -1 else resp.contentLength)

/-- The octets it writes after the head. -/
def Response.written (resp : Response) (wire : ClientWire) (body : ResponseBody τ) : Bytes :=
  if resp.body.isNone then [] else body.write wire (if resp.useChunked then -1 else resp.contentLength)

end write

def closedWire : Segments UInt8 := ⟨[], by simp⟩

/-- The fields behind the first line, and the octets behind the head. -/
def responseRead (octets : Bytes) : Option (HttpHeaders × Bytes) :=
  (cutAt LF octets).bind fun x =>
    (readHeaders ⟨x.2, closedWire⟩ [] octets.length).map fun r => (r.1, r.2.leftover)

/-! ## The head read back -/

section readBack

variable {hs : HttpHeaders} {name value server : Bytes}

theorem oneLine_set (h : ∀ x ∈ hs, x.OneLine) (hn : IsFieldName name) (hv : LF ∉ value) :
    ∀ x ∈ hs.set name value, x.OneLine := by
  induction hs with
  | nil => simpa [HttpHeaders.set] using ⟨hn, hv⟩
  | cons y hs ih =>
    obtain ⟨hy, hs'⟩ := List.forall_mem_cons.mp h
    rw [HttpHeaders.set]
    split_ifs
    · exact List.forall_mem_cons.mpr ⟨⟨hy.1, hv⟩, hs'⟩
    · exact List.forall_mem_cons.mpr ⟨hy, ih hs'⟩

theorem lf_decimalDigits (n : ℕ) : LF ∉ decimalDigits n := (isFieldValue_decimalDigits n).lf

theorem lf_formatHttpDate (time : ℤ) : LF ∉ formatHttpDate time := by
  have hpadded : ∀ w n, LF ∉ padded w n := by
    intro w n
    rw [padded, List.mem_append, List.mem_replicate]
    exact not_or.mpr ⟨fun h => absurd h.2 (by decide), lf_decimalDigits n⟩
  have hint : ∀ w z, LF ∉ paddedInt w z := by
    intro w z
    unfold paddedInt
    split_ifs
    · rw [List.mem_cons]
      exact not_or.mpr ⟨by decide, hpadded _ _⟩
    · exact hpadded _ _
  have hnames : ∀ (names : List Bytes) i, (∀ x ∈ names, LF ∉ x) → LF ∉ names.getD i [] := by
    intro names i h
    rw [List.getD_eq_getElem?_getD]
    cases hi : names[i]? with
    | none => exact List.not_mem_nil
    | some x => exact h x (List.mem_of_getElem? hi)
  have hweek := hnames weekdayNames (Calendar.momentOf time).weekday (by decide)
  have hmonth := hnames monthNames (Calendar.momentOf time).month (by decide)
  have htext : LF ∉ ascii ", " ∧ LF ∉ ascii " " ∧ LF ∉ ascii ":" ∧ LF ∉ ascii " GMT" := by decide
  simp only [formatHttpDate, List.mem_append, not_or]
  simp only [hpadded, hint, hweek, hmonth, htext, not_false_eq_true, and_self]

theorem oneLine_responseHeaders {resp : Response} (hfields : ∀ h ∈ resp.headers, h.OneLine) (hserver : LF ∉ server)
    (now : ℤ) (keepAlive : Bool) :
    ∀ h ∈ responseHeaders server (formatHttpDate now) resp keepAlive, h.OneLine := by
  have hcommon : ∀ h ∈ commonHeaders server (formatHttpDate now) resp.headers keepAlive, h.OneLine := by
    unfold commonHeaders
    refine oneLine_set (oneLine_set ?_ (by decide) (lf_formatHttpDate now)) (by decide) ?_
    · split_ifs
      · exact oneLine_set hfields (by decide) hserver
      · exact hfields
    · cases keepAlive <;> decide
  unfold responseHeaders
  split_ifs
  · exact oneLine_set hcommon (by decide) (by decide)
  · exact oneLine_set hcommon (by decide) (lf_decimalDigits _)

theorem lf_reasonPhrase (code : ℕ) : LF ∉ ascii (reasonPhrase code) := by
  unfold reasonPhrase
  split <;> decide

/-- **A head is read back**: its fields without the blanks around their values, and what follows it. -/
theorem responseRead_writeHead (status : ℕ) (h : ∀ x ∈ hs, x.OneLine) (rest : Bytes) :
    responseRead (writeHead status hs ++ rest) = some (hs.map HttpHeader.trimmed, rest) := by
  have hline : LF ∉ ascii "HTTP/1." ++ decimalDigits 1 ++ [0x20] ++ decimalDigits status ++ [0x20] ++
      ascii (reasonPhrase status) ++ [CR] := by
    have htext : LF ∉ ascii "HTTP/1." ∧ LF ∉ [(0x20 : UInt8)] ∧ LF ∉ [CR] := by decide
    simp only [List.mem_append, not_or, htext, lf_decimalDigits, lf_reasonPhrase, not_false_eq_true, and_self]
  have hsplit : writeHead status hs ++ rest = (ascii "HTTP/1." ++ decimalDigits 1 ++ [0x20] ++ decimalDigits status ++
      [0x20] ++ ascii (reasonPhrase status) ++ [CR]) ++ LF :: (hs.writeTo ++ CR :: LF :: rest) := by
    simp [writeHead, writeStatusLine]
  rw [responseRead, hsplit, cutAt_append_cons hline, Option.bind_some, readHeaders_writeTo_trimmed h]
  rfl

end readBack

/-! ## Framing fields -/

section fields

variable (server date : Bytes) (resp : Response) (keepAlive : Bool)

theorem getAll_commonHeaders (headers : HttpHeaders) {name : Bytes} (h1 : name.length ≠ 6)
    (h2 : name.length ≠ 4) (h3 : name.length ≠ 10) :
    (commonHeaders server date headers keepAlive).getAll name = headers.getAll name := by
  unfold commonHeaders
  rw [getAll_set_of_length_ne _ _ _ (Ne.symm h3),
    getAll_set_of_length_ne _ _ _ (Ne.symm h2)]
  split_ifs
  · exact getAll_set_of_length_ne _ _ _ (Ne.symm h1)
  · rfl

/-- The head at the start of the octets has exactly one framing field: the length of the response, or the chunked
coding. -/
def OneFramingField (contentLength : ℤ) (octets : Bytes) : Prop :=
  ∃ headers rest, responseRead octets = some (headers, rest) ∧
    (headers.getAll (ascii "Content-Length") = [decimalDigits (max 0 contentLength).toNat] ∧
        headers.getAll (ascii "Transfer-Encoding") = [] ∨
      headers.getAll (ascii "Transfer-Encoding") = [ascii "chunked"] ∧
        headers.getAll (ascii "Content-Length") = [])

theorem getAll_map_trimmed (hs : HttpHeaders) (name : Bytes) :
    HttpHeaders.getAll (hs.map HttpHeader.trimmed) name = (hs.getAll name).map trim := by
  simp [HttpHeaders.getAll, List.filter_map, Function.comp_def, HttpHeader.trimmed]

end fields

section written

variable {τ : Type} [Readable τ UInt8] {resp : Response} {server : Bytes} (wire : ClientWire) (now : ℤ)
  (body : ResponseBody τ) (keepAlive : Bool)

theorem responseRead_writeResponse (hu : resp.upgradeHandler = false) (hfields : ∀ h ∈ resp.headers, h.OneLine)
    (hserver : LF ∉ server) :
    responseRead (writeResponse wire server now resp body keepAlive) =
      some ((responseHeaders server (formatHttpDate now) resp keepAlive).map HttpHeader.trimmed,
        resp.written wire body) := by
  have h := oneLine_responseHeaders hfields hserver now keepAlive
  rw [writeResponse, if_neg (by simp [hu]), Response.written]
  dsimp only
  by_cases hn : resp.body.isNone = true
  · rw [if_pos hn, if_pos hn, ← responseRead_writeHead resp.status h, List.append_nil]
  · rw [if_neg hn, if_neg hn, responseRead_writeHead resp.status h]

variable (resp server) in
theorem getAll_read_te :
    HttpHeaders.getAll ((responseHeaders server (formatHttpDate now) resp keepAlive).map HttpHeader.trimmed)
        (ascii "Transfer-Encoding") =
      if resp.useChunked then ascii "chunked" :: ((resp.headers.getAll (ascii "Transfer-Encoding")).tail.map trim)
      else (resp.headers.getAll (ascii "Transfer-Encoding")).map trim := by
  have h := getAll_commonHeaders server (formatHttpDate now) keepAlive resp.headers
    (show (ascii "Transfer-Encoding").length ≠ 6 by decide) (by decide) (by decide)
  rw [getAll_map_trimmed, responseHeaders]
  by_cases hc : resp.useChunked = true
  · rw [if_pos hc, if_pos hc, getAll_set_self, h, List.map_cons, show trim (ascii "chunked") = ascii "chunked" by decide]
  · rw [if_neg hc, if_neg hc, getAll_set_of_length_ne _ _ _ (by decide), h]

variable (resp server) in
theorem getAll_read_cl :
    HttpHeaders.getAll ((responseHeaders server (formatHttpDate now) resp keepAlive).map HttpHeader.trimmed)
        (ascii "Content-Length") =
      if resp.useChunked then (resp.headers.getAll (ascii "Content-Length")).map trim
      else decimalDigits (max 0 resp.contentLength).toNat ::
        (resp.headers.getAll (ascii "Content-Length")).tail.map trim := by
  have h := getAll_commonHeaders server (formatHttpDate now) keepAlive resp.headers
    (show (ascii "Content-Length").length ≠ 6 by decide) (by decide) (by decide)
  rw [getAll_map_trimmed, responseHeaders]
  by_cases hc : resp.useChunked = true
  · rw [if_pos hc, if_pos hc, getAll_set_of_length_ne _ _ _ (by decide), h]
  · rw [if_neg hc, if_neg hc, getAll_set_self, h, List.map_cons, (isFieldValue_decimalDigits _).trim]

/-- **Framing fields of a response.** The head that is written has exactly one exactly if the response brings at most one
field of the kind that is set and none of the other. -/
theorem writeResponse_framing (hu : resp.upgradeHandler = false) (hfields : ∀ h ∈ resp.headers, h.OneLine)
    (hserver : LF ∉ server) :
    OneFramingField resp.contentLength (writeResponse wire server now resp body keepAlive) ↔
      if resp.useChunked then
        (resp.headers.getAll (ascii "Transfer-Encoding")).length ≤ 1 ∧
          resp.headers.getAll (ascii "Content-Length") = []
      else
        (resp.headers.getAll (ascii "Content-Length")).length ≤ 1 ∧
          resp.headers.getAll (ascii "Transfer-Encoding") = [] := by
  have htail : ∀ l : List Bytes, l.tail = [] ↔ l.length ≤ 1 := by
    intro l
    rw [← List.length_eq_zero_iff, List.length_tail]
    omega
  unfold OneFramingField
  simp only [responseRead_writeResponse wire now body keepAlive hu hfields hserver, Option.some.injEq, Prod.mk.injEq,
    and_assoc, exists_and_left, exists_eq_left']
  rw [getAll_read_te, getAll_read_cl]
  by_cases hc : resp.useChunked = true
  · simp only [if_pos hc, List.cons.injEq, true_and, reduceCtorEq, and_false, false_or, htail, List.map_eq_nil_iff]
  · simp only [if_neg hc, List.cons.injEq, true_and, reduceCtorEq, and_false, or_false, htail, List.map_eq_nil_iff]

def helloResponse (headers : HttpHeaders) (contentLength : ℤ) : Response :=
  { headers := headers, body := some (ascii "hello"), contentLength := contentLength }

def helloOctets (headers : HttpHeaders) (contentLength : ℤ) : Bytes :=
  writeResponse ⟨true, fun _ => 1⟩ [] 0 (helloResponse headers contentLength) (.stream helloBody) true

/-- A field of the handler's own. -/
theorem writeResponse_framing_plain :
    OneFramingField 5 (helloOctets (HttpHeaders.set [] (ascii "Content-Length") (ascii "7")) 5) :=
  (writeResponse_framing _ 0 (.stream helloBody) true rfl (by decide) (by decide)).mpr (by decide +kernel)

/-- A length set by the handler stays beside the chunked coding. -/
theorem writeResponse_both :
    (responseRead (helloOctets (HttpHeaders.set [] (ascii "Content-Length") (ascii "5")) (-1))).map
        (fun r => (r.1.getAll (ascii "Content-Length"), r.1.getAll (ascii "Transfer-Encoding"))) =
      some ([ascii "5"], [ascii "chunked"]) ∧
    ¬OneFramingField (-1) (helloOctets (HttpHeaders.set [] (ascii "Content-Length") (ascii "5")) (-1)) := by
  refine (and_iff_left_of_imp fun hread => ?_).mpr (by decide +kernel)
  rintro ⟨headers, rest, hr, h⟩
  rw [hr, Option.map_some, Option.some.injEq, Prod.mk.injEq] at hread
  rw [hread.1, hread.2] at h
  revert h
  decide +kernel

end written

/-! ## The announced body -/

theorem decimalNumber_decimalDigits (n : ℕ) : decimalNumber 0 (decimalDigits n) = n := by
  induction n using decimalDigits.induct with
  | case1 n h =>
    rw [decimalDigits, if_pos h]
    simpa [decimalNumber] using toNat_ofNat_digit h
  | case2 n h ih =>
    have hd := toNat_ofNat_digit (Nat.mod_lt n (show 0 < 10 by omega))
    rw [decimalDigits, if_neg h, decimalNumber, List.foldl_append, show List.foldl _ 0 _ = n / 10 from ih,
      List.foldl_cons, List.foldl_nil, hd]
    omega

theorem isNumber_decimalDigits (n : ℕ) : IsNumber (decimalDigits n) :=
  ⟨decimalDigits_ne_nil n, isDigit_decimalDigits n⟩

/-- The octets after the head are what it announces: nothing for HEAD, a chunked body, or so many octets. -/
def Announced (method : HttpMethod) (octets : Bytes) : Prop :=
  ∃ headers written, responseRead octets = some (headers, written) ∧
    if method.name = ascii "HEAD" then written = []
    else if headers.getAll (ascii "Transfer-Encoding") ≠ [] then
      NamesChunked headers ∧ ∃ body : ChunkedBody, written = body.bytes
    else ∃ v vs, headers.getAll (ascii "Content-Length") = v :: vs ∧ IsNumber v ∧ (∀ w ∈ vs, w = v) ∧
      written.length = decimalNumber 0 v

/-- The response fits its head: no octet for HEAD, any for an unknown length, and otherwise its length, with no other
framing field beside it unless it sends the chunked body its own field names. -/
def Response.Fits (method : HttpMethod) (resp : Response) : Prop :=
  let body := resp.body.getD []
  if method.name = ascii "HEAD" then
    resp.body = none ∨ resp.contentLength = 0 ∨ body = [] ∧ 0 ≤ resp.contentLength
  else if resp.useChunked then True
  else if resp.headers.getAll (ascii "Transfer-Encoding") ≠ [] then
    NamesChunked (resp.headers.map HttpHeader.trimmed) ∧ ∃ b : ChunkedBody, body.take resp.contentLength.toNat = b.bytes
  else
    (∀ w ∈ (resp.headers.getAll (ascii "Content-Length")).tail, trim w = decimalDigits resp.contentLength.toNat) ∧
      resp.contentLength ≤ body.length

section announced

variable {τ : Type} [Readable τ UInt8] {wire : ClientWire} {resp : Response} {body : ResponseBody τ} {xs : Bytes}

/-- What is read of the body: `sendfile` starts at the beginning of a file. -/
def ResponseBody.Gives (wire : ClientWire) (contentLength : ℤ) (xs : Bytes) : ResponseBody τ → Prop
  | .file f => if wire.plainSocket ∧ 0 < contentLength then xs = f.file.data else Yields 4096 f xs
  | .stream s => Yields 4096 s xs

theorem writeMessageBody_of_yields {ρ : Type} [Readable ρ UInt8] {s : ρ} (h : Yields 4096 s xs) (n : ℤ) :
    (n < 0 → ∃ b : ChunkedBody, writeMessageBody s n = b.bytes) ∧ (0 ≤ n → writeMessageBody s n = xs.take n.toNat) := by
  refine ⟨fun hn => ?_, fun hn => ?_⟩
  · rw [writeMessageBody, if_pos hn]
    obtain ⟨chunks, hw, -⟩ := writeChunks_of_yields h
    exact ⟨_, hw⟩
  · rw [writeMessageBody, if_neg (by omega), writeExactly_of_yields h]

theorem write_of_gives {n : ℤ} (h : body.Gives wire n xs) :
    (n < 0 → ∃ b : ChunkedBody, body.write wire n = b.bytes) ∧ (0 ≤ n → body.write wire n = xs.take n.toNat) := by
  cases body with
  | stream s => exact writeMessageBody_of_yields h n
  | file f =>
    rw [ResponseBody.Gives] at h
    rw [ResponseBody.write, writeFileBody]
    split_ifs at h ⊢ with hfast
    · refine ⟨fun hn => absurd hfast.2 (by omega), fun _ => ?_⟩
      rw [writeMessageBodySendfile_eq, slice_zero, h]
    · exact writeMessageBody_of_yields h n

theorem written_of_gives (hb : ∀ xs, resp.body = some xs → body.Gives wire resp.contentLength xs) :
    (resp.useChunked = true → ∃ b : ChunkedBody, resp.written wire body = b.bytes) ∧
      (resp.useChunked = false → resp.written wire body = (resp.body.getD []).take resp.contentLength.toNat) := by
  unfold Response.written
  cases hr : resp.body with
  | none => simp [Response.useChunked, hr]
  | some xs =>
    have hg := hb xs hr
    have hc : resp.useChunked = decide (resp.contentLength < 0) := by simp [Response.useChunked, hr]
    dsimp only [Option.isNone, Option.getD]
    rw [if_neg Bool.false_ne_true]
    refine ⟨fun h => ?_, fun h => ?_⟩
    · -- below zero every length is the same to the body
      have hlt : resp.contentLength < 0 := by simpa [hc] using h
      have hg' : body.Gives wire (-1) xs := by
        cases body with
        | stream s => exact hg
        | file f =>
          rw [ResponseBody.Gives, if_neg fun h => absurd h.2 (by omega)] at hg
          exact (if_neg fun h => absurd h.2 (by decide)).mpr hg
      rw [if_pos h]
      exact (write_of_gives hg').1 (by decide)
    · have hge : 0 ≤ resp.contentLength := by simpa [hc] using h
      rw [if_neg (by simp [h])]
      exact (write_of_gives hg).2 hge

theorem namesChunked_of_cons {headers : HttpHeaders} {vs : List Bytes}
    (h : headers.getAll (ascii "Transfer-Encoding") = ascii "chunked" :: vs) : NamesChunked headers :=
  ⟨ascii "chunked", by rw [h]; exact List.mem_cons_self, by decide +kernel⟩

/-- **Bodies of responses.** What follows the head is the body the head announces exactly if the
response fits. -/
theorem writeResponse_announced {server : Bytes} (now : ℤ) (keepAlive : Bool) (method : HttpMethod)
    (hu : resp.upgradeHandler = false) (hfields : ∀ h ∈ resp.headers, h.OneLine) (hserver : LF ∉ server)
    (hb : ∀ xs, resp.body = some xs → body.Gives wire resp.contentLength xs) :
    Announced method (writeResponse wire server now resp body keepAlive) ↔ resp.Fits method := by
  obtain ⟨hchunked, hplain⟩ := written_of_gives hb
  have hte := getAll_read_te resp server now keepAlive
  have hcl := getAll_read_cl resp server now keepAlive
  unfold Announced Response.Fits
  simp only [responseRead_writeResponse wire now body keepAlive hu hfields hserver, Option.some.injEq, Prod.mk.injEq,
    and_assoc, exists_and_left, exists_eq_left']
  by_cases hc : resp.useChunked = true
  · obtain ⟨b, hw⟩ := hchunked hc
    rw [if_pos hc] at hte
    have hlt : resp.body.isSome = true ∧ resp.contentLength < 0 := by
      simpa [Response.useChunked] using hc
    have hnone : resp.body ≠ none := by
      rw [← Option.isSome_iff_ne_none]
      exact hlt.1
    by_cases hm : method.name = ascii "HEAD"
    · rw [if_pos hm, if_pos hm, hw]
      refine iff_of_false b.bytes_ne_nil ?_
      rintro (h | h | ⟨-, h⟩)
      · exact hnone h
      · omega
      · omega
    · rw [if_neg hm, if_neg hm, if_pos hc, if_pos (by rw [hte]; exact List.cons_ne_nil _ _)]
      exact iff_of_true ⟨namesChunked_of_cons hte, b, hw⟩ trivial
  · have hw := hplain (Bool.eq_false_iff.mpr hc)
    rw [if_neg hc] at hte hcl
    have hge : resp.body = none ∨ 0 ≤ resp.contentLength := by
      cases hr : resp.body with
      | none => exact .inl rfl
      | some xs => exact .inr (by simpa [Response.useChunked, hr] using hc)
    by_cases hm : method.name = ascii "HEAD"
    · rw [if_pos hm, if_pos hm, hw, List.take_eq_nil_iff]
      obtain hn | hge := hge
      · simp [hn]
      · constructor
        · rintro (h | h)
          · exact .inr (.inl (by omega))
          · exact .inr (.inr ⟨h, hge⟩)
        · rintro (h | h | ⟨h, -⟩)
          · simp [h]
          · simp [h]
          · exact .inr h
    · rw [if_neg hm, if_neg hm, if_neg hc, hte, hw]
      by_cases ht : resp.headers.getAll (ascii "Transfer-Encoding") = []
      · have hmax : (max 0 resp.contentLength).toNat = resp.contentLength.toNat := by omega
        rw [if_neg (not_not.mpr (List.map_eq_nil_iff.mpr ht)), if_neg (not_not.mpr ht), hcl, hmax, List.length_take]
        constructor
        · rintro ⟨v, vs, he, -, hall, hlen⟩
          cases he
          rw [decimalNumber_decimalDigits] at hlen
          exact ⟨fun w hw => hall _ (List.mem_map_of_mem hw), by omega⟩
        · rintro ⟨hall, hlen⟩
          refine ⟨_, _, rfl, isNumber_decimalDigits _, List.forall_mem_map.mpr hall, ?_⟩
          rw [decimalNumber_decimalDigits]
          omega
      · rw [if_pos (mt List.map_eq_nil_iff.mp ht), if_pos ht, NamesChunked, NamesChunked, hte, getAll_map_trimmed]

/-- A file of which one octet has been read, sent by `sendfile`, and a body that is read in two pieces, through TLS. -/
theorem writeResponse_announced_hello :
    Announced ⟨ascii "GET"⟩ (writeResponse ⟨true, fun _ => 1⟩ (ascii "nhttp") 0
        (helloResponse [] 5) (.file (helloFile [.read 1]) : ResponseBody (Segments UInt8)) true) ∧
      Announced ⟨ascii "GET"⟩ (writeResponse ⟨false, fun _ => 1⟩ [] 0 (helloResponse [] 5) (.stream helloBody) true) := by
  have hfits : (helloResponse [] 5).Fits ⟨ascii "GET"⟩ := by
    unfold Response.Fits
    dsimp only
    rw [if_neg (by decide), if_neg (by decide), if_neg (by decide)]
    decide
  refine ⟨(writeResponse_announced 0 true ⟨ascii "GET"⟩ rfl (by decide) (by decide) ?_).mpr hfits,
    (writeResponse_announced 0 true ⟨ascii "GET"⟩ rfl (by decide) (by decide) ?_).mpr hfits⟩
  · rintro _ ⟨⟩
    have hdata : (helloFile [.read 1]).file.data = ascii "hello" := by decide +kernel
    rw [ResponseBody.Gives, if_pos (by decide), hdata]
  · rintro _ ⟨⟩
    exact yields_contents 4096 helloBody

/-- A body is sent after the head for HEAD, and one shorter than its length leaves the client waiting. -/
theorem writeResponse_not_announced :
    ¬Announced ⟨ascii "HEAD"⟩ (helloOctets [] 5) ∧ ¬Announced ⟨ascii "GET"⟩ (helloOctets [] 9) := by
  have hread : ∀ n ∈ [5, 9], (responseRead (helloOctets [] n)).map
      (fun r => (r.1.getAll (ascii "Transfer-Encoding"), r.1.getAll (ascii "Content-Length"), r.2)) =
        some ([], [decimalDigits n.toNat], ascii "hello") := by decide +kernel
  refine ⟨?_, ?_⟩
  · rintro ⟨headers, written, hr, h⟩
    have hw := hread 5 (by decide)
    rw [hr, Option.map_some, Option.some.injEq, Prod.mk.injEq, Prod.mk.injEq] at hw
    dsimp only at hw
    rw [if_pos rfl, hw.2.2] at h
    exact absurd h (by decide)
  · rintro ⟨headers, written, hr, h⟩
    have hw := hread 9 (by decide)
    rw [hr, Option.map_some, Option.some.injEq, Prod.mk.injEq, Prod.mk.injEq] at hw
    dsimp only at hw
    rw [if_neg (by decide), hw.1, if_neg (by simp), hw.2.1, hw.2.2] at h
    obtain ⟨v, vs, he, -, -, hlen⟩ := h
    cases he
    revert hlen
    decide +kernel

end announced

end Nhttp.Server
