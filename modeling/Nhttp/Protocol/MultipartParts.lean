import Nhttp.Protocol.Multipart
import Nhttp.Server.HeaderBlock

/-!
# Parts, written and read

* `Part`, `serialise`: a multipart body as a client writes it.
* `readPartBody_spec`: a read of a body hands out a beginning of it, and nothing only at its end.
* `nextPart_spec`, `nextPart_last`: the step to the next part.
* **`multipart_read_back`**: the parts are read back, on every segmentation and for every way of reading.
-/

namespace Nhttp.Protocol

open Octets Reading Find List Loops

structure Part where
  headers : HttpHeaders
  body : Bytes
deriving DecidableEq

def markerOf (boundary : Bytes) : Bytes := CR :: LF :: 0x2d :: 0x2d :: boundary

/-- One part with the delimiter line before it and the line end after it. -/
def Part.text (boundary : Bytes) (p : Part) : Bytes :=
  [0x2d, 0x2d] ++ boundary ++ [CR, LF] ++ (p.headers.writeTo ++ [CR, LF]) ++ p.body ++ [CR, LF]

def serialise (boundary : Bytes) (parts : List Part) (epilogue : Bytes) : Bytes :=
  parts.flatMap (Part.text boundary) ++ ([0x2d, 0x2d] ++ boundary ++ [0x2d, 0x2d]) ++ epilogue

/-- Names without colon, CR and LF, trimmed values without CR and LF, and a body without the delimiter. -/
structure Part.Ok (boundary : Bytes) (p : Part) : Prop where
  headers : ∀ h ∈ p.headers, h.Plain ∧ CR ∉ h.name ∧ CR ∉ h.value
  body : ¬markerOf boundary <:+: p.body

instance (boundary : Bytes) (p : Part) : Decidable (p.Ok boundary) :=
  decidable_of_iff ((∀ h ∈ p.headers, h.Plain ∧ CR ∉ h.name ∧ CR ∉ h.value) ∧ ¬markerOf boundary <:+: p.body)
    ⟨fun ⟨h₁, h₂⟩ => ⟨h₁, h₂⟩, fun h => ⟨h.headers, h.body⟩⟩

/-- What follows a delimiter. -/
def afterMarker (boundary epilogue : Bytes) : List Part → Bytes
  | [] => 0x2d :: 0x2d :: epilogue
  | p :: ps => CR :: LF :: (p.headers.writeTo ++ CR :: LF ::
      (p.body ++ markerOf boundary ++ afterMarker boundary epilogue ps))

theorem crlf_serialise (boundary : Bytes) (parts : List Part) (epilogue : Bytes) :
    CR :: LF :: serialise boundary parts epilogue =
      markerOf boundary ++ afterMarker boundary epilogue parts := by
  induction parts with
  | nil => simp [serialise, markerOf, afterMarker]
  | cons p ps ih =>
    rw [afterMarker, append_assoc p.body, ← ih]
    simp [serialise, markerOf, Part.text]

namespace MultipartReader

variable {ω : Type} [Source ω UInt8] {boundary : Bytes}

/-! ## Bodies -/

section Body

variable {r : MultipartReader ω} {left t : Bytes}

theorem find_buffer (hb : CR ∉ boundary) (hm : r.boundaryMarker = markerOf boundary)
    (hc : r.contents = left ++ markerOf boundary ++ t) (hleft : ¬markerOf boundary <:+: left) :
    find r.boundaryMarker r.buffer =
      if left.length + (markerOf boundary).length ≤ r.buffer.length then some left.length else none := by
  have hcr : CR ∉ LF :: 0x2d :: 0x2d :: boundary := by
    simp only [mem_cons, not_or]
    exact ⟨by decide, by decide, by decide, hb⟩
  rw [hm]
  exact find_delimiter hcr hleft (hc ▸ r.buffer_prefix)

theorem readPartBody_spec (hb : CR ∉ boundary) (ha : r.partActive = true)
    (hm : r.boundaryMarker = markerOf boundary) (hc : r.contents = left ++ markerOf boundary ++ t)
    (hleft : ¬markerOf boundary <:+: left) {n : ℕ} (hn : 0 < n) :
    ((r.readPartBody n).1 ≠ [] ∧ (r.readPartBody n).1.length ≤ left.length ∧ Kept r (r.readPartBody n).2) ∨
    ((r.readPartBody n).1 = [] ∧ left = [] ∧ (r.readPartBody n).2.partActive = false ∧
      (r.readPartBody n).2.boundaryMarker = r.boundaryMarker ∧
      (r.readPartBody n).2.finished = r.finished) := by
  -- octets handed out from a buffer that has them
  have hout : ∀ {r' : MultipartReader ω} {k : ℕ} {out : Bytes × MultipartReader ω}, Kept r r' →
      0 < k → k ≤ left.length → k ≤ r'.buffer.length → r'.handOut k = some out →
      out.1 ≠ [] ∧ out.1.length ≤ left.length ∧ Kept r out.2 := by
    rintro r' k ⟨xs, r₁⟩ hk hpos hle hbuf ho
    obtain ⟨-, rfl, rfl⟩ := handOut_eq_some ho
    refine ⟨?_, ?_, hk.marker, hk.finished, hk.active⟩
    · rw [ne_eq, take_eq_nil_iff, not_or]
      refine ⟨by omega, ?_⟩
      rintro hnil
      rw [hnil, length_nil] at hbuf
      omega
    · exact (length_take_le _ _).trans hle
  unfold readPartBody
  rw [if_pos ha]
  refine awaitMore_rule (Q := fun out => (out.1 ≠ [] ∧ out.1.length ≤ left.length ∧ Kept r out.2) ∨
    (out.1 = [] ∧ left = [] ∧ out.2.partActive = false ∧ out.2.boundaryMarker = r.boundaryMarker ∧
      out.2.finished = r.finished)) r (fun r' out hc' hk hl => ?_) (fun r' hc' hk hl he => ?_)
  · have hfind := find_buffer hb (hk.marker.trans hm) (hc'.trans hc) hleft
    unfold bodyLook at hl
    split_ifs at hfind with hlen
    · rw [hfind] at hl
      cases hl
      obtain hnil | hne := Nat.eq_zero_or_pos left.length
      · have hno : r'.handOut (min n left.length) = none := by
          rw [hnil, Nat.min_zero]
          rfl
        rw [hno]
        exact .inr ⟨rfl, length_eq_zero_iff.mp hnil, rfl, hk.marker, hk.finished⟩
      · have hpos : 0 < min n left.length := Nat.lt_min.mpr ⟨hn, hne⟩
        obtain ⟨out, ho⟩ : ∃ out, r'.handOut (min n left.length) = some out := ⟨_, if_pos hpos⟩
        rw [ho]
        exact .inl (hout hk hpos (Nat.min_le_right _ _) (by omega) ho)
    · obtain ⟨xs, r₁⟩ := out
      rw [hfind] at hl
      split_ifs at hl with hlt
      have hm' : r'.boundaryMarker.length = (markerOf boundary).length := by rw [hk.marker, hm]
      have hpos := (handOut_eq_some hl).1
      refine .inl (hout hk hpos ?_ ?_ hl)
      · omega
      · omega
  · -- at the end of the source the whole delimiter is in the buffer
    have hfind := find_buffer hb (hk.marker.trans hm) (hc'.trans hc) hleft
    have hlen : left.length + (markerOf boundary).length ≤ r'.buffer.length := by
      rw [← contents_of_eof he, hc', hc, length_append, length_append]
      omega
    rw [if_pos hlen] at hfind
    rw [bodyLook, hfind] at hl
    cases hl

end Body

/-- `left` of a body is to come, then the delimiter and `t`. -/
structure Within (boundary t left : Bytes) (r : MultipartReader ω) : Prop where
  marker : r.boundaryMarker = markerOf boundary
  finished : r.finished = false
  contents : r.contents = left ++ markerOf boundary ++ t
  clean : ¬markerOf boundary <:+: left
  inactive : r.partActive = false → left = []

namespace Within

variable {t left : Bytes} {r : MultipartReader ω}

/-- One read hands out a beginning of what is left, and nothing only at its end. -/
theorem readPartBody (h : Within boundary t left r) (hb : CR ∉ boundary) {n : ℕ} (hn : 0 < n) :
    ∃ left', left = (r.readPartBody n).1 ++ left' ∧ Within boundary t left' (r.readPartBody n).2 ∧
      ((r.readPartBody n).1 = [] → left = [] ∧ (r.readPartBody n).2.partActive = false) := by
  by_cases ha : r.partActive = true
  · have happ := r.readPartBody_append n
    rw [h.contents, append_assoc] at happ
    obtain ⟨hne, hle, hk⟩ | ⟨hnil, hleft, hina, hmark, hfin⟩ := readPartBody_spec hb ha h.marker h.contents h.clean hn
    · obtain ⟨left', hl⟩ : (r.readPartBody n).1 <+: left :=
        prefix_of_prefix_length_le ⟨_, happ⟩ (prefix_append _ _) hle
      rw [← hl, append_assoc] at happ
      refine ⟨left', hl.symm, ⟨hk.marker.trans h.marker, hk.finished.trans h.finished, ?_, ?_, ?_⟩,
        fun hnil => absurd hnil hne⟩
      · rw [append_assoc]
        exact append_cancel_left happ
      · exact fun hi => h.clean (hi.trans ⟨(r.readPartBody n).1, [], by rw [append_nil, hl]⟩)
      · intro hf
        rw [hk.active, ha] at hf
        cases hf
    · rw [hnil, nil_append, ← append_assoc] at happ
      refine ⟨left, by rw [hnil]; rfl, ⟨hmark.trans h.marker, hfin.trans h.finished, happ, h.clean,
        fun _ => hleft⟩, fun _ => ⟨hleft, hina⟩⟩
  · have hina := Bool.eq_false_iff.mpr ha
    have he : r.readPartBody n = ([], r) := if_neg ha
    rw [he]
    exact ⟨left, rfl, h, fun _ => ⟨h.inactive hina, hina⟩⟩

theorem discardBody (h : Within boundary t left r) (hb : CR ∉ boundary) : Within boundary t [] r.discardBody := by
  unfold MultipartReader.discardBody
  induction r using (discardLoop (ω := ω)).induct generalizing left with
  | hinl r r' hstep ih =>
    obtain ⟨left', -, hw, -⟩ := h.readPartBody hb (show 0 < 512 by decide)
    obtain ⟨-, x, xs, hr⟩ := discardLoop_inl hstep
    rw [hr] at hw
    rw [Loop.run_of_inl hstep]
    exact ih hw
  | hinr r r' hstep =>
    rw [Loop.run_of_inr hstep]
    obtain ⟨-, hr⟩ | ⟨ha, rfl⟩ := discardLoop_inr hstep
    · obtain ⟨left', hl, hw, hnil⟩ := h.readPartBody hb (show 0 < 512 by decide)
      rw [hr] at hl hw hnil
      obtain ⟨rfl, -⟩ := hnil rfl
      obtain rfl : left' = [] := by simpa using hl.symm
      exact hw
    · rw [h.inactive ha] at h
      exact h

end Within

/-! ## The next part -/

theorem tryParse_headerLine {h : HttpHeader} (hp : h.Plain) (hn : CR ∉ h.name) (hv : CR ∉ h.value) :
    ∃ k, HttpHeader.tryParse (h.line ++ [LF]) = .done k h := by
  have hlf : LF ∉ h.line := HttpHeader.not_mem_line.mpr ⟨hp.1.lf, hp.2.lf⟩
  have hcr : CR ∉ h.line := by
    rw [h.line_eq]
    have h1 : CR ≠ 0x3a := by decide
    have h2 : CR ≠ 0x20 := by decide
    simp [hn, hv, h1, h2]
  have hstrip : stripCr h.line = h.line := if_neg fun hl => hcr (mem_of_getLast? hl)
  obtain ⟨n, v, hcut, hname, hvalue⟩ := cutAt_line h
  obtain rfl := hname.mpr hp.1.colon
  rw [hvalue hp.1.colon] at hcut
  refine ⟨h.line.length + 1, ?_⟩
  unfold HttpHeader.tryParse
  rw [lineAt_raw hlf, hstrip]
  dsimp only
  rw [hcut]
  dsimp only
  rw [if_neg hp.1.ne_nil, trim_blank_cons, hp.2.trim]

variable {r : MultipartReader ω} {left epilogue : Bytes}

theorem readPartHeaders_spec {hs : HttpHeaders} (hh : ∀ h ∈ hs, h.Plain ∧ CR ∉ h.name ∧ CR ∉ h.value)
    (acc : HttpHeaders) {rest : Bytes} (hc : r.contents = hs.writeTo ++ CR :: LF :: rest) :
    ∃ r', readPartHeaders acc r = (some (acc ++ hs), r') ∧ r'.contents = rest ∧ Kept r r' := by
  -- the first line is what stands before the first CRLF
  have hfirst : ∀ {r : MultipartReader ω} {line rest : Bytes}, LF ∉ line →
      r.contents = line ++ CR :: LF :: rest →
      ∃ r', r.readHeaderLine = (some line, r') ∧ r'.contents = rest ∧ Kept r r' := by
    intro r line rest hlf hc
    have hl := lineAt_crlf hlf rest
    obtain ⟨line', k, r', hline, he, hc', hk⟩ | ⟨hno, -⟩ := r.readHeaderLine_spec
    · rw [hc, hl] at hline
      cases hline
      rw [hc, drop_crlf] at hc'
      exact ⟨r', he, hc', hk⟩
    · rw [hc] at hno
      exact absurd (by simp) hno
  induction hs generalizing acc r with
  | nil =>
    obtain ⟨r', he, hc', hk⟩ := hfirst not_mem_nil hc
    refine ⟨r', ?_, hc', hk⟩
    have hstep : partHeadersLoop.step (acc, r) = .inr (some acc, r') := by
      unfold partHeadersLoop
      dsimp only
      rw [he]
      exact if_pos rfl
    rw [readPartHeaders, append_nil, Loop.run_of_inr hstep]
  | cons h hs ih =>
    obtain ⟨⟨hp, hn, hv⟩, hrest⟩ := forall_mem_cons.mp hh
    rw [HttpHeaders.writeTo_cons] at hc
    obtain ⟨r₁, he, hc1, hk1⟩ := hfirst (HttpHeader.not_mem_line.mpr ⟨hp.1.lf, hp.2.lf⟩) hc
    obtain ⟨r', he', hc', hk'⟩ := ih hrest (acc ++ [h]) hc1
    refine ⟨r', ?_, hc', hk1.trans hk'⟩
    obtain ⟨k, hparse⟩ := tryParse_headerLine hp hn hv
    have hne : h.line ≠ [] := by
      rw [h.line_eq]
      simp
    have hstep : partHeadersLoop.step (acc, r) = .inl (acc ++ [h], r₁) := by
      unfold partHeadersLoop
      dsimp only
      rw [he]
      dsimp only
      rw [if_neg hne, hparse]
      rfl
    rw [readPartHeaders, Loop.run_of_inl hstep]
    rw [readPartHeaders, append_assoc] at he'
    exact he'

theorem ensureDelimiter_spec {t : Bytes} (h : Within boundary t [] r)
    (hb : CR ∉ boundary) : ∃ r' : MultipartReader ω, r.ensureDelimiterOrEof = (some 0, r') ∧
      r'.contents = r.contents ∧ Kept r r' ∧ (markerOf boundary).length ≤ r'.buffer.length := by
  refine awaitMore_rule (Q := fun out => ∃ r' : MultipartReader ω, out = (some 0, r') ∧
    r'.contents = r.contents ∧ Kept r r' ∧ (markerOf boundary).length ≤ r'.buffer.length) r
    (fun r' out hc hk hl => ?_) (fun r' hc hk hl he => ?_)
  · have hfind := find_buffer hb (hk.marker.trans h.marker) (hc.trans h.contents) h.clean
    rw [delimiterLook, hfind, length_nil, Nat.zero_add] at hl
    split_ifs at hl with hlen
    · cases hl
      exact ⟨r', rfl, hc, hk, hlen⟩
    · cases hl
  · have hfind := find_buffer hb (hk.marker.trans h.marker) (hc.trans h.contents) h.clean
    have hlen : (markerOf boundary).length ≤ r'.buffer.length := by
      rw [← contents_of_eof he, hc, h.contents, nil_append, length_append]
      omega
    rw [delimiterLook, hfind, length_nil, Nat.zero_add, if_pos hlen] at hl
    cases hl

theorem awaitTwo_spec (h : 2 ≤ r.contents.length) (out : Unit × MultipartReader ω)
    (ho : out = awaitMore twoLook (fun r => ((), r)) r) :
    out.2.contents = r.contents ∧ Kept r out.2 ∧ 2 ≤ out.2.buffer.length := by
  rw [ho]
  refine awaitMore_rule (Q := fun out => out.2.contents = r.contents ∧ Kept r out.2 ∧ 2 ≤ out.2.buffer.length) r
    (fun r' out hc hk hl => ?_) (fun r' hc hk hl he => ?_)
  · unfold twoLook at hl
    split_ifs at hl with hlen
    cases hl
    exact ⟨hc, hk, Nat.le_of_not_lt hlen⟩
  · refine ⟨hc, hk, ?_⟩
    rw [← contents_of_eof he, hc]
    exact h

theorem nextPart_eq {t : Bytes} (h : Within boundary t left r) (hb : CR ∉ boundary)
    (ht : 2 ≤ t.length) : ∃ r' : MultipartReader ω, r'.contents = t ∧ r'.boundaryMarker = markerOf boundary ∧
      r'.finished = false ∧ 2 ≤ r'.buffer.length ∧ r.nextPart =
        if r'.buffer.take 2 = [0x2d, 0x2d] then (none, { r' with finished := true })
        else
          match readPartHeaders [] { r' with buffer := r'.buffer.drop 2 } with
          | (none, r) => (none, { r with finished := true })
          | (some headers, r) => (some headers, { r with partActive := true }) := by
  have hd := h.discardBody hb
  obtain ⟨r₁, hens, hc1, hk1, hlen1⟩ := ensureDelimiter_spec hd hb
  have hm1 := hk1.marker.trans hd.marker
  obtain ⟨r₂, hr2⟩ : ∃ r₂ : MultipartReader ω,
      r₂ = { r₁ with buffer := r₁.buffer.drop (0 + r₁.boundaryMarker.length) } := ⟨_, rfl⟩
  have hc2 : r₂.contents = t := by
    rw [hr2, Nat.zero_add, r₁.contents_drop (by rw [hm1]; exact hlen1), hc1, hd.contents, hm1, nil_append,
      drop_left]
  obtain ⟨out, hout⟩ : ∃ out, out = awaitMore twoLook (fun r => ((), r)) r₂ := ⟨_, rfl⟩
  obtain ⟨hc3, hk3, hlen3⟩ := awaitTwo_spec (by rwa [hc2]) out hout
  have hm2 : r₂.boundaryMarker = r₁.boundaryMarker := by rw [hr2]
  have hf2 : r₂.finished = r₁.finished := by rw [hr2]
  refine ⟨out.2, hc3.trans hc2, hk3.marker.trans (hm2.trans hm1),
    hk3.finished.trans (hf2.trans (hk1.finished.trans hd.finished)), hlen3, ?_⟩
  unfold nextPart
  rw [if_neg (by rw [h.finished]; exact Bool.false_ne_true), hens]
  dsimp only
  rw [← hr2, ← hout]
  by_cases htake : out.2.buffer.take 2 = [0x2d, 0x2d]
  · rw [if_pos (.inr htake), if_pos htake]
  · have hshort : ¬(out.2.buffer.length < 2 ∨ out.2.buffer.take 2 = [0x2d, 0x2d]) :=
      not_or.mpr ⟨Nat.not_lt_of_le hlen3, htake⟩
    exact (if_neg hshort).trans (if_neg htake).symm

theorem take_buffer (r : MultipartReader ω) {k : ℕ} (h : k ≤ r.buffer.length) :
    r.buffer.take k = r.contents.take k := by
  rw [contents, take_append_of_le_length h]

theorem nextPart_spec {p : Part} {ps : List Part}
    (h : Within boundary (afterMarker boundary epilogue (p :: ps)) left r) (hb : CR ∉ boundary)
    (hp : p.Ok boundary) : ∃ r', r.nextPart = (some p.headers, r') ∧
      Within boundary (afterMarker boundary epilogue ps) p.body r' := by
  obtain ⟨r', hc, hm, hf, hlen, he⟩ := nextPart_eq h hb (by simp [afterMarker])
  have htake : r'.buffer.take 2 ≠ [0x2d, 0x2d] := by
    rw [r'.take_buffer hlen, hc]
    exact (by decide : [CR, LF] ≠ [0x2d, 0x2d])
  have hc' : ({ r' with buffer := r'.buffer.drop 2 } : MultipartReader ω).contents = p.headers.writeTo ++
      CR :: LF :: (p.body ++ markerOf boundary ++ afterMarker boundary epilogue ps) := by
    rw [r'.contents_drop hlen, hc]
    rfl
  obtain ⟨r'', hr, hc'', hk⟩ := readPartHeaders_spec hp.headers [] hc'
  refine ⟨{ r'' with partActive := true }, ?_, ?_⟩
  · rw [he, if_neg htake, hr]
    rfl
  · exact ⟨hk.marker.trans hm, hk.finished.trans hf, hc'', hp.body, fun hfalse => by cases hfalse⟩

theorem nextPart_last (h : Within boundary (afterMarker boundary epilogue []) left r) (hb : CR ∉ boundary) :
    r.nextPart.1 = none := by
  obtain ⟨r', hc, -, -, hlen, he⟩ := nextPart_eq h hb (by simp [afterMarker])
  have htake : r'.buffer.take 2 = [0x2d, 0x2d] := by
    rw [r'.take_buffer hlen, hc]
    rfl
  rw [he, if_pos htake]

/-! ## A caller -/

def readBody (r : MultipartReader ω) : List ℕ → List Bytes × MultipartReader ω
  | [] => ([], r)
  | n :: ns =>
    let (xs, r) := r.readPartBody n
    let (xss, r) := r.readBody ns
    (xs :: xss, r)

/-- One part for each list of sizes, its body read in reads of these sizes; `none` if there is no part. -/
def takeParts (r : MultipartReader ω) : List (List ℕ) → Option (List (HttpHeaders × List Bytes) × MultipartReader ω)
  | [] => some ([], r)
  | ns :: plan =>
    match r.nextPart with
    | (none, _) => none
    | (some headers, r) =>
      let (got, r) := r.readBody ns
      (r.takeParts plan).map fun out => ((headers, got) :: out.1, out.2)

theorem Within.readBody {t : Bytes} (h : Within boundary t left r)
    (hb : CR ∉ boundary) {ns : List ℕ} (hns : ∀ n ∈ ns, 0 < n) :
    ∃ left', left = (r.readBody ns).1.flatten ++ left' ∧ Within boundary t left' (r.readBody ns).2 ∧
      ([] ∈ (r.readBody ns).1 → left' = []) := by
  induction ns generalizing left r with
  | nil => exact ⟨left, rfl, h, fun hm => absurd hm not_mem_nil⟩
  | cons n ns ih =>
    obtain ⟨hn, hns⟩ := forall_mem_cons.mp hns
    obtain ⟨left₁, hl1, hw1, hnil⟩ := h.readPartBody hb hn
    obtain ⟨left', hl', hw', hend⟩ := ih hw1 hns
    refine ⟨left', ?_, hw', fun hm => ?_⟩
    · rw [hl1, hl', ← append_assoc]
      rfl
    · obtain hm | hm := mem_cons.mp hm
      · obtain ⟨rfl, -⟩ := hnil hm.symm
        have := (append_eq_nil_iff.mp hl1.symm).2
        rw [this] at hl'
        exact (append_eq_nil_iff.mp hl'.symm).2
      · exact hend hm

def Matches (p : Part) (out : HttpHeaders × List Bytes) : Prop :=
  out.1 = p.headers ∧ out.2.flatten <+: p.body ∧ ([] ∈ out.2 → out.2.flatten = p.body)

theorem takeParts_spec {parts : List Part} {plan : List (List ℕ)}
    (hb : CR ∉ boundary) (hparts : ∀ p ∈ parts, p.Ok boundary)
    (hlen : plan.length = parts.length) (hplan : ∀ ns ∈ plan, ∀ n ∈ ns, 0 < n)
    (h : Within boundary (afterMarker boundary epilogue parts) left r) :
    ∃ out r', r.takeParts plan = some (out, r') ∧ List.Forall₂ Matches parts out ∧ r'.nextPart.1 = none := by
  induction parts generalizing plan left r with
  | nil =>
    obtain rfl := length_eq_zero_iff.mp hlen
    exact ⟨[], r, rfl, .nil, nextPart_last h hb⟩
  | cons p ps ih =>
    obtain ⟨hp, hps⟩ := forall_mem_cons.mp hparts
    cases plan with
    | nil => cases hlen
    | cons ns plan =>
      obtain ⟨hns, hplan⟩ := forall_mem_cons.mp hplan
      obtain ⟨r₁, he, hw⟩ := nextPart_spec h hb hp
      obtain ⟨left', hl, hw', hend⟩ := hw.readBody hb hns
      obtain ⟨out, r', ho, hmatch, hlast⟩ := ih hps (Nat.succ.inj hlen) hplan hw'
      refine ⟨(p.headers, (r₁.readBody ns).1) :: out, r', ?_, .cons ⟨rfl, ⟨left', hl.symm⟩, fun hm => ?_⟩ hmatch,
        hlast⟩
      · rw [takeParts, he]
        dsimp only
        rw [ho]
        rfl
      · rw [hend hm, append_nil] at hl
        exact hl.symm

end MultipartReader

open MultipartReader

/-- **Multipart bodies are read back**, whatever follows them, however the octets arrive and however much of
each body the caller reads. -/
theorem multipart_read_back {ω : Type} [Source ω UInt8] {boundary epilogue : Bytes} {parts : List Part}
    {plan : List (List ℕ)} {source : ω} (hb : CR ∉ boundary) (hparts : ∀ p ∈ parts, p.Ok boundary)
    (hsource : Source.contents source = serialise boundary parts epilogue) (hlen : plan.length = parts.length)
    (hplan : ∀ ns ∈ plan, ∀ n ∈ ns, 0 < n) :
    ∃ out r', (MultipartReader.new source boundary).takeParts plan = some (out, r') ∧
      List.Forall₂ Matches parts out ∧ r'.nextPart.1 = none := by
  have hstart : Within boundary (afterMarker boundary epilogue parts) [] (MultipartReader.new source boundary) := by
    refine ⟨rfl, rfl, ?_, ?_, fun _ => rfl⟩
    · rw [nil_append, ← crlf_serialise, ← hsource]
      rfl
    · rw [infix_nil]
      exact cons_ne_nil _ _
  exact takeParts_spec hb hparts hlen hplan hstart

/-- A body that ends with half a delimiter, and an empty one. -/
def twoParts : List Part :=
  [⟨[⟨ascii "Content-Disposition", ascii "form-data"⟩], ascii "--B" ++ [CR, LF, 0x2d]⟩, ⟨[], []⟩]

theorem multipart_read_back_two :
    ∃ out r', (MultipartReader.new (Segments.singles (serialise (ascii "B") twoParts [LF])) (ascii "B")).takeParts
        [[1, 4096, 2], []] = some (out, r') ∧
      List.Forall₂ Matches twoParts out ∧ r'.nextPart.1 = none :=
  multipart_read_back (by decide) (by decide) (Segments.contents_singles _) rfl (by decide)

end Nhttp.Protocol
