import Nhttp.Server.Http1Io
import Nhttp.Server.Message

/-!
# The HTTP/1.1 connection

* `readRequestLine`, `extractHostname`, `wantsKeepAlive` follow `connection.cpp`.
* `serve`: one turn of the loop of `connection::run`, from the request line to the decision to go
  on; `run`: the turns of a connection.

A turn keeps the response and the decision, not the octets written: they are not read back.
-/

namespace Nhttp.Server

open Octets Reading Protocol Io Source

structure Params where
  maxHeaderSize : ℕ := 16 * 1024
  maxRequestLineSize : ℕ := 8 * 1024

variable {ω : Type} [Source ω UInt8]

/-! ## The parts of a turn -/

def readRequestLine (b : BufferedWire ω) (maxRequestLineSize : ℕ) :
    Option (HttpResource × BufferedWire ω) :=
  match HttpResource.tryParse b.leftover with
  | .done consumed out => some (out, { b with leftover := b.leftover.drop consumed })
  | .malformed => none
  | .more =>
    if maxRequestLineSize < b.leftover.length then none
    else match _h : b.fillMore with
      | none => none
      | some b => readRequestLine b maxRequestLineSize
termination_by left b.wire
decreasing_by exact (BufferedWire.fillMore_some _h).2

def extractHostname (headers : HttpHeaders) : Bytes :=
  match headers.get (ascii "Host") with
  | none => []
  | some v =>
    if v.head? = some 0x5b then
      match cutAt 0x5d v with
      | none => v
      | some (a, _) => a ++ [0x5d]
    else match cutAt 0x3a v with
      | none => v
      | some (a, _) => a

def wantsKeepAlive (resource : HttpResource) (headers : HttpHeaders) : Bool :=
  match headers.get (ascii "Connection") with
  | none => decide (1 ≤ resource.httpMinor)
  | some conn =>
    if headerValueContainsToken conn (ascii "close") then false
    else if headerValueContainsToken conn (ascii "keep-alive") then true
    else decide (1 ≤ resource.httpMinor)

def handlerOrDefault (handler : Option Handler) : Handler :=
  handler.getD fun _ => .ret (makeResponse 501)

inductive Turn (ω : Type) where
  /-- No request line: the connection ends without an answer. -/
  | closed
  /-- A malformed header block or `Content-Length`: 400, and the connection ends. -/
  | rejected
  | served (resp : Response) (keepAlive : Bool) (b : BufferedWire ω)

def Turn.next : Turn ω → Option (BufferedWire ω)
  | .served resp keepAlive b => if resp.upgradeHandler || !keepAlive then none else some b
  | _ => none

/-- The part of a turn after the header block: the handler, then the drain loop. -/
def serveBody (handler : Option Handler) (resource : HttpResource) (headers : HttpHeaders)
    (body : BodyStream ω) : Turn ω :=
  let req : Request := ⟨resource, headers, extractHostname headers⟩
  let (_, resp, body) := (handlerOrDefault handler req).run body
  let (_, body) := drain 4096 body
  .served resp (wantsKeepAlive resource headers) body.wire

/-- One turn of `connection::run`. -/
def serve (p : Params) (handler : Option Handler) (b : BufferedWire ω) : Turn ω :=
  match readRequestLine b p.maxRequestLineSize with
  | none => .closed
  | some (resource, b) =>
    match readHeaders b [] p.maxHeaderSize with
    | none => .rejected
    | some (headers, b) =>
      match makeBodyStream b headers with
      | none => .rejected
      | some body => serveBody handler resource headers body

/-! ## Every turn takes something off the connection -/

variable {r : HttpResource} {b b' : BufferedWire ω} {body : BodyStream ω} {headers : HttpHeaders}
  {handler : Option Handler}

theorem tryParse_resource_done {data : Bytes} {k : ℕ}
    (h : HttpResource.tryParse data = .done k r) : 0 < k ∧ k ≤ data.length := by
  unfold HttpResource.tryParse at h
  split at h
  · cases h
  · next hl =>
    split at h
    · cases h
    · split at h
      · cases h
      · split at h
        · cases h
        · cases h
          exact lineAt_length hl

theorem contents_readRequestLine {m : ℕ} (h : readRequestLine b m = some (r, b')) :
    contents b' <:+ contents b ∧ left b' < left b := by
  fun_induction readRequestLine b m with
  | case1 b k out hp =>
    cases h
    have := tryParse_resource_done hp
    refine ⟨b.contents_drop_suffix k, ?_⟩
    simp only [left, contents, BufferedWire.contents, List.length_append, List.length_drop]
    omega
  | case2 | case3 | case4 => cases h
  | case5 b _ _ b₁ hf ih =>
    have hsame : contents b₁ = contents b := (BufferedWire.fillMore_some hf).1
    obtain ⟨hs, hlt⟩ := ih h
    rw [left, left, hsame] at hlt
    exact ⟨hsame ▸ hs, hlt⟩

theorem BodyStream.contents_wire_suffix (s : BodyStream ω) (n : ℕ) :
    contents (s.read n).2.wire <:+ contents s.wire := by
  cases s with
  | chunked d =>
    obtain ⟨k, hk⟩ := d.advances_read n
    rw [read, wire, wire, hk]
    exact contents_suffix_after 4096 k d.source
  | memory b => exact List.suffix_rfl
  | range r =>
    simp only [read, wire, RangeStream.read, BufferedWire.inner_ensurePositioned]
    split_ifs
    · rw [BufferedWire.inner_ensurePositioned]
    · exact contents_read_suffix r.inner _

theorem wire_makeBodyStream (h : makeBodyStream b headers = some body) : body.wire = b := by
  unfold makeBodyStream at h
  split_ifs at h
  · cases h; rfl
  · split at h
    · cases h; rfl
    · obtain ⟨length, -, rfl⟩ := Option.map_eq_some_iff.mp h
      rw [BodyStream.wire, RangeStream.new]
      split_ifs <;> rfl

theorem contents_serveBody {handler : Option Handler} {resource : HttpResource}
    {headers : HttpHeaders} {body : BodyStream ω} {b' : BufferedWire ω}
    (h : (serveBody handler resource headers body).next = some b') :
    contents b' <:+ contents body.wire := by
  obtain ⟨s, hs, -, he⟩ := Reader.run_drain_inv
    (show ∀ (_ : Bytes) (s : BodyStream ω) (n : ℕ), True →
      contents s.wire <:+ contents body.wire →
      contents (Readable.read s n).2.wire <:+ contents body.wire from
        fun _ s n _ h => (s.contents_wire_suffix n).trans h)
    trivial (handlerOrDefault handler ⟨resource, headers, extractHostname headers⟩)
    (Reader.asks_true _) body List.suffix_rfl
  simp only [serveBody, Turn.next] at h
  split_ifs at h
  cases h
  rw [he]
  exact (s.contents_wire_suffix 4096).trans hs

theorem contents_serve {p : Params} (h : (serve p handler b).next = some b') :
    contents b' <:+ contents b ∧ left b' < left b := by
  unfold serve at h
  split at h
  · cases h
  · next hl =>
    split at h
    · cases h
    · next hh =>
      split at h
      · cases h
      · next hb =>
        obtain ⟨hline, hlt⟩ := contents_readRequestLine hl
        have hrest := contents_serveBody h
        rw [wire_makeBodyStream hb] at hrest
        have hs := hrest.trans (contents_readHeaders hh)
        exact ⟨hs.trans hline, lt_of_le_of_lt hs.length_le hlt⟩

/-- The turns of `connection::run`. -/
def run (p : Params) (handler : Option Handler) (b : BufferedWire ω) : List (Turn ω) :=
  match _h : (serve p handler b).next with
  | none => [serve p handler b]
  | some b' => serve p handler b :: run p handler b'
termination_by left b
decreasing_by exact (contents_serve _h).2

end Nhttp.Server
