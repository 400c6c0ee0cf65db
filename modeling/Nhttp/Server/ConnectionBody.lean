import Nhttp.Protocol.ChunkedBody
import Nhttp.Server.Connection

/-!
# Request bodies and what is left on the connection

* `drain_chunked`: after the handler and the drain loop, the connection stands at the first block
  boundary at or behind the place where the chunked decoder stops.
* `drain_contentLength`: a body with a `Content-Length` is delivered exactly, and the rest stays.
* **`run_suffixes`**: over all turns of a connection, no octet is parsed twice.

A block is what one read of 4096 octets returns from the connection's buffer, then its wire.
-/

namespace Nhttp.Server

open Octets Reading Protocol Io Source

variable {ω : Type} [Source ω UInt8]

/-! ## Chunked bodies -/

section chunked

variable {b : BufferedWire ω} {ρ : Type}

def afterBody (body : BodyStream ω) (t : Reader UInt8 ρ) : BufferedWire ω :=
  (drain 4096 (t.run body).2.2).2.wire

theorem afterBody_chunked (b : BufferedWire ω) (t : Reader UInt8 ρ) :
    ∃ k, afterBody (chunkedBody b) t = after 4096 k b := by
  have hstep : ∀ (s : BodyStream ω) (n : ℕ), (∃ d : ChunkedDecoder (BufferedWire ω),
      s = .chunked d ∧ ∃ k, d.source = after 4096 k b) → ∃ d : ChunkedDecoder (BufferedWire ω),
      (Readable.read s n).2 = .chunked d ∧ ∃ k, d.source = after 4096 k b := by
    rintro _ n ⟨d, rfl, k, hk⟩
    obtain ⟨l, hl⟩ := d.advances_read n
    exact ⟨_, rfl, l + k, by rw [hl, hk, after, after, after, ← Function.iterate_add_apply]⟩
  obtain ⟨s, hs, -, he⟩ := Reader.run_drain_inv (fun (_ : Bytes) s n (_ : True) h => hstep s n h)
    trivial t t.asks_true (chunkedBody b) ⟨_, rfl, 0, rfl⟩
  obtain ⟨d, hd, hk⟩ := hstep s 4096 hs
  rw [afterBody, he, hd]
  exact hk

/-- **The drain loop stops** at the first block boundary with at most `(scan _).past` octets to come. -/
theorem drain_chunked (b : BufferedWire ω) {t : Reader UInt8 ρ} (ht : t.Asks (0 < ·)) :
    Fetched 4096 (scan (contents b)).past b (afterBody (chunkedBody b) t) ∧
      left (afterBody (chunkedBody b) t) ≤ (scan (contents b)).past := by
  obtain ⟨T, hT⟩ : ∃ T, (scan (contents b)).past = T := ⟨_, rfl⟩
  rw [hT]
  have hstep : ∀ (s : BodyStream ω) (n : ℕ), 0 < n → (∃ d : ChunkedDecoder (BufferedWire ω),
      s = .chunked d ∧ d.Ends T ∧ Fetched 4096 T b d.source) →
      ∃ d : ChunkedDecoder (BufferedWire ω), (Readable.read s n).2 = .chunked d ∧ d.Ends T ∧
        Fetched 4096 T b d.source ∧ ((Readable.read s n).1 = [] → d.finished = true) := by
    rintro _ n hn ⟨d, rfl, he, hf⟩
    obtain ⟨hm, -, hfin⟩ := d.read_moves hn
    exact ⟨_, rfl, hm.ends T he, hf.trans (hm.fetched T he), hfin⟩
  obtain ⟨s, hs, h0, he⟩ := Reader.run_drain_inv
    (I := fun (_ : Bytes) (s : BodyStream ω) => ∃ d : ChunkedDecoder (BufferedWire ω),
      s = .chunked d ∧ d.Ends T ∧ Fetched 4096 T b d.source)
    (fun _ s n hn h => by
      obtain ⟨d, h1, h2, h3, -⟩ := hstep s n hn h
      exact ⟨d, h1, h2, h3⟩)
    (show 0 < 4096 by omega) t ht (chunkedBody b) ⟨_, rfl, hT, .refl _⟩
  obtain ⟨d, hd, hends, hf, hfin⟩ := hstep s 4096 (by omega) hs
  rw [afterBody, he, hd]
  rw [ChunkedDecoder.Ends, if_pos (hfin h0)] at hends
  exact ⟨hf, hends⟩

def IsChunked (headers : HttpHeaders) : Prop :=
  ((headers.get (ascii "Transfer-Encoding")).any
    fun te => headerValueContainsToken te (ascii "chunked")) = true

instance (headers : HttpHeaders) : Decidable (IsChunked headers) :=
  inferInstanceAs (Decidable (_ = true))

theorem makeBodyStream_chunked {headers : HttpHeaders} (h : IsChunked headers) (b : BufferedWire ω) :
    makeBodyStream b headers = some (chunkedBody b) := if_pos h

theorem serve_of_isChunked {p : Params} {c c₁ c₂ : BufferedWire ω} {resource : HttpResource}
    {headers : HttpHeaders} (handler : Option Handler)
    (hline : readRequestLine c p.maxRequestLineSize = some (resource, c₁))
    (hhead : readHeaders c₁ [] p.maxHeaderSize = some (headers, c₂)) (hte : IsChunked headers) :
    ∃ resp, serve p handler c = .served resp (wantsKeepAlive resource headers)
      (afterBody (chunkedBody c₂)
        (handlerOrDefault handler ⟨resource, headers, extractHostname headers⟩)) := by
  rw [serve, hline]
  simp only [hhead, makeBodyStream_chunked hte]
  exact ⟨_, rfl⟩

theorem suffix_eq_of_length {xs ys zs : Bytes} (hx : xs <:+ zs) (hy : ys <:+ zs)
    (h : xs.length = ys.length) : xs = ys :=
  (List.suffix_of_suffix_length_le hx hy h.le).eq_of_length h

def chunkedHead : Bytes := ascii "POST / HTTP/1.1\r\nTransfer-Encoding: chunked\r\n\r\n"

def hiBody : ChunkedBody where
  chunks := [⟨[0x32], [], ascii "hi", by decide +kernel, isExtension_nil, rfl, by decide,
    by decide⟩]
  lastDigits := [0x30]
  lastExt := []
  trailers := []
  last_ne_nil := lastDigit_ne_nil
  last_zero := lastDigit_zero
  last_isExtension := isExtension_nil
  isTrailer := isTrailer_nil

def nextRequest : Bytes := ascii "GET /next HTTP/1.1\r\n\r\n"

def arriving (pieces : List Bytes) (h : ∀ p ∈ pieces, p ≠ []) : BufferedWire (Segments UInt8) :=
  ⟨[], ⟨pieces, h⟩⟩

/-- A size line without a digit, and a request in a later read. -/
def smuggled : BufferedWire (Segments UInt8) :=
  arriving [chunkedHead ++ ascii "zz\r\n", nextRequest] (by decide)

theorem malformed_zz (rest : Bytes) : Malformed (ascii "zz\r\n" ++ rest) := by
  refine Malformed.sizeLine (show LF ∉ ascii "zz" by decide) ?_
  rintro ⟨_ | ⟨c, digits⟩, ext, he, hne, hhex, -⟩
  · exact hne rfl
  · have hc : c = 0x7a := (List.cons.inj he).1.symm
    have := hhex c List.mem_cons_self
    rw [hc] at this
    cases this

end chunked

/-! ## Bodies with a length -/

section length

def decimalNumber (acc : ℕ) (digits : Bytes) : ℕ :=
  digits.foldl (fun acc c => acc * 10 + (c.toNat - 0x30)) acc

theorem le_decimalNumber (acc : ℕ) (digits : Bytes) : acc ≤ decimalNumber acc digits := by
  induction digits generalizing acc with
  | nil => exact le_rfl
  | cons c digits ih =>
    rw [decimalNumber, List.foldl_cons]
    exact le_trans (by omega) (ih _)

theorem parseContentLength_eq {digits : Bytes} (hd : ∀ c ∈ digits, isDigit c = true) {acc : ℕ}
    (hlt : decimalNumber acc digits < 2 ^ 63) :
    parseContentLength acc digits = some (decimalNumber acc digits : ℤ) := by
  induction digits generalizing acc with
  | nil => rfl
  | cons c digits ih =>
    have hle : acc * 10 + (c.toNat - 0x30) ≤ decimalNumber acc (c :: digits) := le_decimalNumber _ _
    rw [parseContentLength, if_pos (hd c List.mem_cons_self), toInt64_of_lt (by omega) (by omega)]
    exact_mod_cast ih (fun x hx => hd x (List.mem_cons_of_mem _ hx)) hlt

open RangeStream

theorem window_new (b : BufferedWire ω) (n : ℕ) :
    (new b 0 n).ensurePositioned.Window ((contents b).take n)
      ((contents b).drop n) := by
  have hr : (new b 0 n).ensurePositioned =
      ⟨b, true, 0, n, 0, true⟩ := by
    have h0 : ¬(n : ℤ) < 0 := by omega
    simp [new, ensurePositioned, IoStream.getLength, IoStream.seek, h0]
  rw [hr]
  exact ⟨rfl, rfl, by simp [remaining], by simp [remaining]⟩

theorem run_drain_range (b : BufferedWire ω) (L : ℕ) {ρ : Type} (t : Reader UInt8 ρ)
    (ht : t.Asks fun n => 0 < n ∧ n < 2 ^ 63) :
    (t.run (BodyStream.range (new b 0 L))).1 ++
          (drain 4096 (t.run (BodyStream.range (new b 0 L))).2.2).1 =
        (contents b).take L ∧
      contents (afterBody (.range (new b 0 L)) t) = (contents b).drop L := by
  have hwin := window_new b L
  generalize (contents b).take L = xs₀ at *
  generalize (contents b).drop L = ys at *
  have hstep : ∀ (acc : Bytes) (s : BodyStream ω) (n : ℕ), 0 < n ∧ n < 2 ^ 63 →
      (∃ r xs, s = .range r ∧ r.ensurePositioned.Window xs ys ∧ acc ++ xs = xs₀) →
      ∃ r xs, (Readable.read s n).2 = .range r ∧ r.ensurePositioned.Window xs ys ∧
        acc ++ (Readable.read s n).1 ++ xs = xs₀ := by
    rintro acc _ n ⟨hn, hn'⟩ ⟨r, xs, rfl, hw, hx⟩
    obtain ⟨⟨xs', happ, hw'⟩, -⟩ := read_window hw hn hn'
    rw [read_ensurePositioned] at happ hw'
    refine ⟨_, xs', rfl, ?_, ?_⟩
    · rwa [ensurePositioned_of_positioned hw'.positioned]
    · rw [List.append_assoc, ← hx, ← happ]
      rfl
  obtain ⟨s, ⟨r, xs, rfl, hw, hx⟩, h0, he⟩ := Reader.run_drain_inv hstep
    (show 0 < 4096 ∧ 4096 < 2 ^ 63 by omega) t ht _ ⟨_, xs₀, rfl, hwin, rfl⟩
  obtain ⟨⟨xs', happ, hw'⟩, hnil⟩ := read_window hw (show 0 < 4096 by omega) (by omega)
  rw [read_ensurePositioned] at happ hw' hnil
  have hxs : xs = [] := hnil h0
  subst hxs
  have hxs' : xs' = [] := (List.append_eq_nil_iff.mp happ).2
  refine ⟨by rwa [List.append_nil] at hx, ?_⟩
  rw [afterBody, he]
  change contents (r.read 4096).2.inner = ys
  rw [← List.take_append_drop (r.read 4096).2.remaining.toNat (contents (r.read 4096).2.inner),
    hw'.xs_eq, hw'.ys_eq, hxs', List.nil_append]

/-- **A body with a `Content-Length`** as its only framing header: the first `L` octets of buffer and wire are
delivered, or all if there are fewer, and the octets behind them are left. -/
theorem drain_contentLength (b : BufferedWire ω) {headers : HttpHeaders} {v : Bytes}
    (hcl : headers.getAll (ascii "Content-Length") = [v])
    (hte : headers.getAll (ascii "Transfer-Encoding") = [])
    (hv : ∀ c ∈ v, isDigit c = true) (hlt : decimalNumber 0 v < 2 ^ 63) :
    ∃ body, makeBodyStream b headers = some body ∧
      ∀ {ρ : Type} (t : Reader UInt8 ρ), t.Asks (fun n => 0 < n ∧ n < 2 ^ 63) →
        (t.run body).1 ++ (drain 4096 (t.run body).2.2).1 =
          (Source.contents b).take (decimalNumber 0 v) ∧
        Source.contents (afterBody body t) = (Source.contents b).drop (decimalNumber 0 v) := by
  have hbody : makeBodyStream b headers =
      some (.range (RangeStream.new b 0 (decimalNumber 0 v : ℕ))) := by
    have hp := parseContentLength_eq hv hlt
    rw [makeBodyStream, HttpHeaders.get_eq_head_getAll, HttpHeaders.get_eq_head_getAll, hcl, hte]
    simp only [List.head?_nil, List.head?_cons, Option.any_none, Bool.false_eq_true, if_false]
    rw [show (0 : ℤ) = ((0 : ℕ) : ℤ) from rfl, hp]
    rfl
  exact ⟨_, hbody, fun t ht => run_drain_range b _ t ht⟩

/-- Five octets of six are the body, whatever the cuts. -/
theorem drain_contentLength_five :
    ∃ body, makeBodyStream ⟨ascii "he", (⟨[ascii "l", ascii "lo!"], by decide⟩ : Segments UInt8)⟩
        [⟨ascii "content-length", ascii "05"⟩] = some body ∧
      Source.contents (afterBody body (.read 3 fun _ => .ret ())) = ascii "!" := by
  obtain ⟨body, hb, h⟩ := drain_contentLength
    ⟨ascii "he", (⟨[ascii "l", ascii "lo!"], by decide⟩ : Segments UInt8)⟩
    (show HttpHeaders.getAll [⟨ascii "content-length", ascii "05"⟩] (ascii "Content-Length") =
      [ascii "05"] by decide +kernel)
    (by decide +kernel) (by decide +kernel) (by decide +kernel)
  refine ⟨body, hb, (h (.read 3 fun _ => .ret ()) ⟨by decide, fun _ => trivial⟩).2.trans ?_⟩
  decide +kernel

end length

/-! ## The turns of a connection -/

/-- **No octet is parsed twice.** Each turn of a connection starts from a proper suffix of what was to come at every
turn before it, so there is at most one turn for each octet, and one more. -/
theorem run_suffixes (p : Params) (handler : Option Handler) (b : BufferedWire ω) :
    (b :: (run p handler b).filterMap Turn.next).Pairwise
        (fun x y => contents y <:+ contents x ∧ contents y ≠ contents x) ∧
      (run p handler b).length ≤ left b + 1 := by
  fun_induction run p handler b with
  | case1 b h => simp [h]
  | case2 b b' h ih =>
    obtain ⟨hpair, hlen⟩ := ih
    obtain ⟨hs, hlt⟩ := contents_serve h
    have hne : contents b' ≠ contents b := fun he => by
      rw [left, left, he] at hlt
      exact lt_irrefl _ hlt
    refine ⟨?_, by rw [List.length_cons]; omega⟩
    rw [List.filterMap_cons_some h, List.pairwise_cons]
    refine ⟨?_, hpair⟩
    intro y hy
    obtain rfl | hy := List.mem_cons.mp hy
    · exact ⟨hs, hne⟩
    · obtain ⟨hys, -⟩ := List.rel_of_pairwise_cons hpair hy
      refine ⟨hys.trans hs, fun he => hne ?_⟩
      exact hs.eq_of_length_le (by rw [← he]; exact hys.length_le)

end Nhttp.Server
