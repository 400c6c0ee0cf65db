import Nhttp.Lib.Find
import Nhttp.Lib.Loops
import Nhttp.Lib.Reading
import Nhttp.Protocol.Header

/-!
# Multipart bodies

`multipart_reader` over any source of octets.

* `awaitLoop`: the loop of its coroutines, which look at the buffer and read more as long as they cannot tell;
  `partHeadersLoop`, `discardLoop`: the loops of `next_part` over them.
* `readPartBody`, `nextPart`: the body of the current part and the step to the next one.
* `awaitMore_rule`: what holds after such a loop.
-/

namespace Nhttp.Protocol

open Octets Reading Find Loops

/-- `multipart_reader`; `delimiter_pos_` is handed on as a result. -/
structure MultipartReader (ω : Type) where
  source : ω
  /-- CRLF, two dashes and the boundary. -/
  boundaryMarker : Bytes
  buffer : Bytes := [CR, LF]
  eof : Bool := false
  finished : Bool := false
  partActive : Bool := false

namespace MultipartReader

variable {ω β : Type}

/-- Nothing but the buffer, the source and the end of it has changed. -/
structure Kept (r r' : MultipartReader ω) : Prop where
  marker : r'.boundaryMarker = r.boundaryMarker
  finished : r'.finished = r.finished
  active : r'.partActive = r.partActive

theorem Kept.refl (r : MultipartReader ω) : Kept r r := ⟨rfl, rfl, rfl⟩

variable {r r' : MultipartReader ω} {k : ℕ} {xs : Bytes}

theorem Kept.trans {r₁ : MultipartReader ω} (h : Kept r r₁) (h' : Kept r₁ r') : Kept r r' :=
  ⟨h'.marker.trans h.marker, h'.finished.trans h.finished, h'.active.trans h.active⟩

/-- The constructor. -/
def new (source : ω) (boundary : Bytes) : MultipartReader ω where
  source := source
  boundaryMarker := CR :: LF :: 0x2d :: 0x2d :: boundary

variable [Source ω UInt8]

def fillMore (r : MultipartReader ω) : Bool × MultipartReader ω :=
  if r.eof then (false, r)
  else match Readable.read r.source 4096 with
    | ([], source) => (false, { r with source := source, eof := true })
    | (b :: got, source) => (true, { r with source := source, buffer := r.buffer ++ b :: got })

/-- How often more can be read. -/
def ahead (r : MultipartReader ω) : ℕ := if r.eof then 0 else left r.source + 1

theorem ahead_fillMore (h : r.eof = false) : r.fillMore.2.ahead < r.ahead := by
  have hleft := left_read r.source (show 0 < 4096 by decide)
  unfold fillMore ahead
  rw [h, if_neg Bool.false_ne_true, if_neg Bool.false_ne_true]
  rcases hr : Readable.read r.source 4096 with ⟨_ | ⟨b, got⟩, source⟩
  · simp
  · rw [hr, List.length_cons] at hleft
    dsimp only at hleft ⊢
    rw [if_neg Bool.false_ne_true]
    omega

/-- The loop of a coroutine: `look` at the buffer, and read more until it yields something or the source has
ended. -/
def awaitLoop (look : MultipartReader ω → Option (β × MultipartReader ω))
    (atEof : MultipartReader ω → β × MultipartReader ω) : Loop (MultipartReader ω) (β × MultipartReader ω) where
  step r :=
    match look r with
    | some out => .inr out
    | none => if r.eof then .inr (atEof r) else .inl r.fillMore.2
  measure := ahead
  decreasing {r _} h := by
    cases hl : look r with
    | some out =>
      rw [hl] at h
      cases h
    | none =>
      rw [hl] at h
      dsimp only at h
      split_ifs at h with he
      cases h
      exact ahead_fillMore (Bool.eq_false_iff.mpr he)

def awaitMore (look : MultipartReader ω → Option (β × MultipartReader ω))
    (atEof : MultipartReader ω → β × MultipartReader ω) (r : MultipartReader ω) : β × MultipartReader ω :=
  (awaitLoop look atEof).run r

def notFound {γ : Type} (r : MultipartReader ω) : Option γ × MultipartReader ω := (none, r)

def delimiterLook (r : MultipartReader ω) : Option (Option ℕ × MultipartReader ω) :=
  (find r.boundaryMarker r.buffer).map fun pos => (some pos, r)

/-- `ensure_delimiter_or_eof`, with the position found. -/
def ensureDelimiterOrEof (r : MultipartReader ω) : Option ℕ × MultipartReader ω := awaitMore delimiterLook notFound r

def lineLook (r : MultipartReader ω) : Option (Option Bytes × MultipartReader ω) :=
  (lineAt r.buffer).map fun l => (some l.1, { r with buffer := r.buffer.drop l.2 })

def readHeaderLine (r : MultipartReader ω) : Option Bytes × MultipartReader ω := awaitMore lineLook notFound r

/-- The next `k` octets of the buffer are handed out, if there are any. -/
def handOut (r : MultipartReader ω) (k : ℕ) : Option (Bytes × MultipartReader ω) :=
  if 0 < k then some (r.buffer.take k, { r with buffer := r.buffer.drop k }) else none

/-- Everything before the marker, or what cannot be the beginning of one. -/
def bodyLook (n : ℕ) (r : MultipartReader ω) : Option (Bytes × MultipartReader ω) :=
  match find r.boundaryMarker r.buffer with
  | some pos => some ((r.handOut (min n pos)).getD ([], { r with partActive := false }))
  | none =>
    if r.boundaryMarker.length < r.buffer.length then
      r.handOut (min n (r.buffer.length - (r.boundaryMarker.length - 1)))
    else none

def bodyEof (n : ℕ) (r : MultipartReader ω) : Bytes × MultipartReader ω :=
  (r.handOut (min n r.buffer.length)).getD ([], { r with partActive := false })

def readPartBody (r : MultipartReader ω) (n : ℕ) : Bytes × MultipartReader ω :=
  if r.partActive then awaitMore (bodyLook n) (bodyEof n) r else ([], r)

def twoLook (r : MultipartReader ω) : Option (Unit × MultipartReader ω) :=
  if r.buffer.length < 2 then none else some ((), r)

/-- The octets that are to come. -/
def contents (r : MultipartReader ω) : Bytes := r.buffer ++ if r.eof then [] else Source.contents r.source

/-! ## More input -/

theorem fillMore_spec (r : MultipartReader ω) : r.fillMore.2.contents = r.contents ∧ Kept r r.fillMore.2 := by
  unfold fillMore
  split_ifs with he
  · exact ⟨rfl, .refl r⟩
  · have happ := Source.read_append r.source 4096 (by decide)
    have hnil := contents_read r.source (show 0 < 4096 by decide)
    rcases hr : Readable.read r.source 4096 with ⟨_ | ⟨b, got⟩, source⟩
    · rw [hr] at hnil happ
      have hs : Source.contents r.source = [] := by
        rw [← happ, hnil rfl]
        rfl
      refine ⟨?_, rfl, rfl, rfl⟩
      simp [contents, he, hs]
    · rw [hr] at happ
      refine ⟨?_, rfl, rfl, rfl⟩
      simp only [contents, he, ← happ]
      simp

section await

variable {look : MultipartReader ω → Option (β × MultipartReader ω)} {atEof : MultipartReader ω → β × MultipartReader ω}

theorem awaitLoop_inl {r r' : MultipartReader ω} (h : (awaitLoop look atEof).step r = .inl r') :
    look r = none ∧ r.eof = false ∧ r' = r.fillMore.2 := by
  unfold awaitLoop at h
  dsimp only at h
  cases hl : look r with
  | some out =>
    rw [hl] at h
    cases h
  | none =>
    rw [hl] at h
    split_ifs at h with he
    cases h
    exact ⟨rfl, Bool.eq_false_iff.mpr he, rfl⟩

theorem awaitLoop_inr {r : MultipartReader ω} {out : β × MultipartReader ω}
    (h : (awaitLoop look atEof).step r = .inr out) :
    look r = some out ∨ (look r = none ∧ r.eof = true ∧ out = atEof r) := by
  unfold awaitLoop at h
  dsimp only at h
  cases hl : look r with
  | some out =>
    rw [hl] at h
    cases h
    exact .inl rfl
  | none =>
    rw [hl] at h
    split_ifs at h with he
    cases h
    exact .inr ⟨rfl, he, rfl⟩

/-- **What holds after a loop**: look and end are applied to readers that have the same to come. -/
theorem awaitMore_rule {Q : β × MultipartReader ω → Prop} (r : MultipartReader ω)
    (hlook : ∀ r' out, r'.contents = r.contents → Kept r r' → look r' = some out → Q out)
    (heof : ∀ r', r'.contents = r.contents → Kept r r' → look r' = none → r'.eof = true → Q (atEof r')) :
    Q (awaitMore look atEof r) := by
  have key : ∀ r', r'.contents = r.contents → Kept r r' → Q (awaitMore look atEof r') := by
    intro r'
    unfold awaitMore
    induction r' using (awaitLoop look atEof).induct with
    | hinl t t' hstep ih =>
      intro hc hk
      rw [Loop.run_of_inl hstep]
      obtain ⟨-, -, rfl⟩ := awaitLoop_inl hstep
      obtain ⟨hc', hk'⟩ := t.fillMore_spec
      exact ih (hc'.trans hc) (hk.trans hk')
    | hinr t out hstep =>
      intro hc hk
      rw [Loop.run_of_inr hstep]
      obtain hl | ⟨hl, he, rfl⟩ := awaitLoop_inr hstep
      · exact hlook t out hc hk hl
      · exact heof t hc hk hl he
  exact key r rfl (.refl r)

end await

/-! ## Lines and bodies -/

theorem contents_of_eof (h : r.eof = true) : r.contents = r.buffer := by
  simp [contents, h]

theorem buffer_prefix (r : MultipartReader ω) : r.buffer <+: r.contents := List.prefix_append _ _

theorem contents_drop (r : MultipartReader ω) (h : k ≤ r.buffer.length) :
    ({ r with buffer := r.buffer.drop k } : MultipartReader ω).contents = r.contents.drop k := by
  unfold contents
  rw [List.drop_append_of_le_length h]

theorem readHeaderLine_spec (r : MultipartReader ω) :
    (∃ line k r', lineAt r.contents = some (line, k) ∧ r.readHeaderLine = (some line, r') ∧
      r'.contents = r.contents.drop k ∧ Kept r r') ∨
    (LF ∉ r.contents ∧ ∃ r', r.readHeaderLine = (none, r') ∧ Kept r r') := by
  refine awaitMore_rule (Q := fun out => (∃ line k r', lineAt r.contents = some (line, k) ∧
    out = (some line, r') ∧ r'.contents = r.contents.drop k ∧ Kept r r') ∨
    (LF ∉ r.contents ∧ ∃ r', out = (none, r') ∧ Kept r r')) r (fun r' out hc hk hl => ?_)
    (fun r' hc hk hl he => ?_)
  · obtain ⟨⟨line, k⟩, hline, rfl⟩ := Option.map_eq_some_iff.mp hl
    obtain ⟨rest, hrest⟩ := r'.buffer_prefix
    refine .inl ⟨line, k, _, ?_, rfl, ?_, hk.marker, hk.finished, hk.active⟩
    · rw [← hc, ← hrest]
      exact lineAt_append hline rest
    · rw [← hc]
      exact r'.contents_drop (lineAt_length hline).2
  · refine .inr ⟨?_, r', rfl, hk⟩
    rw [← hc, contents_of_eof he]
    exact lineAt_eq_none.mp (Option.map_eq_none_iff.mp hl)

omit [Source ω UInt8] in
theorem handOut_eq_some (h : r.handOut k = some (xs, r')) :
    0 < k ∧ xs = r.buffer.take k ∧ r' = { r with buffer := r.buffer.drop k } := by
  unfold handOut at h
  split_ifs at h with hk
  cases h
  exact ⟨hk, rfl, rfl⟩

theorem handOut_append (h : r.handOut k = some (xs, r')) :
    xs ++ r'.contents = r.contents := by
  obtain ⟨-, rfl, rfl⟩ := handOut_eq_some h
  unfold contents
  rw [← List.append_assoc, List.take_append_drop]

theorem handOut_getD_append (r : MultipartReader ω) (k : ℕ) :
    ((r.handOut k).getD ([], { r with partActive := false })).1 ++
      ((r.handOut k).getD ([], { r with partActive := false })).2.contents = r.contents := by
  rcases h : r.handOut k with _ | ⟨xs, r'⟩
  · rfl
  · exact handOut_append h

theorem readPartBody_append (r : MultipartReader ω) (n : ℕ) :
    (r.readPartBody n).1 ++ (r.readPartBody n).2.contents = r.contents := by
  unfold readPartBody
  split_ifs
  · refine awaitMore_rule (Q := fun out => out.1 ++ out.2.contents = r.contents) r (fun r' out hc _ hl => ?_)
      (fun r' hc _ _ _ => ?_)
    · rw [← hc]
      unfold bodyLook at hl
      cases hf : find r'.boundaryMarker r'.buffer with
      | some pos =>
        rw [hf] at hl
        cases hl
        exact r'.handOut_getD_append _
      | none =>
        rw [hf] at hl
        split_ifs at hl
        exact handOut_append hl
    · rw [← hc]
      exact r'.handOut_getD_append _
  · rfl

theorem length_readHeaderLine {line : Bytes} (h : r.readHeaderLine = (some line, r')) :
    r'.contents.length < r.contents.length := by
  obtain ⟨line', k, r₁, hline, he, hc, -⟩ | ⟨-, r₁, he, -⟩ := r.readHeaderLine_spec
  · rw [he] at h
    cases h
    have hk := lineAt_length hline
    rw [hc, List.length_drop]
    omega
  · rw [he] at h
    cases h

theorem length_readPartBody {n : ℕ} {x : UInt8}
    (h : r.readPartBody n = (x :: xs, r')) : r'.contents.length < r.contents.length := by
  have happ := r.readPartBody_append n
  rw [h] at happ
  rw [← happ, List.length_append, List.length_cons]
  dsimp only
  omega

/-! ## The next part -/

def partHeadersLoop : Loop (HttpHeaders × MultipartReader ω) (Option HttpHeaders × MultipartReader ω) where
  step s :=
    match s.2.readHeaderLine with
    | (none, r) => .inr (none, r)
    | (some line, r) =>
      if line = [] then .inr (some s.1, r)
      else
        .inl (match HttpHeader.tryParse (line ++ [LF]) with
          | .done _ h => s.1.add h.name h.value
          | _ => s.1, r)
  measure s := s.2.contents.length
  decreasing {s _} h := by
    rcases hr : s.2.readHeaderLine with ⟨_ | line, r⟩
    · rw [hr] at h
      cases h
    · rw [hr] at h
      dsimp only at h
      split_ifs at h
      cases h
      exact length_readHeaderLine hr

def readPartHeaders (headers : HttpHeaders) (r : MultipartReader ω) : Option HttpHeaders × MultipartReader ω :=
  partHeadersLoop.run (headers, r)

/-- The rest of a body is dropped, 512 octets at a time. -/
def discardLoop : Loop (MultipartReader ω) (MultipartReader ω) where
  step r :=
    if r.partActive then
      match r.readPartBody 512 with
      | ([], r') => .inr r'
      | (_ :: _, r') => .inl r'
    else .inr r
  measure r := r.contents.length
  decreasing {r _} h := by
    split_ifs at h
    rcases hr : r.readPartBody 512 with ⟨_ | ⟨x, xs⟩, r'⟩
    · rw [hr] at h
      cases h
    · rw [hr] at h
      cases h
      exact length_readPartBody hr

def discardBody (r : MultipartReader ω) : MultipartReader ω := discardLoop.run r

/-- `next_part`; the body of the part is then read by `readPartBody`. -/
def nextPart (r : MultipartReader ω) : Option HttpHeaders × MultipartReader ω :=
  if r.finished then (none, r)
  else
    match (discardBody r).ensureDelimiterOrEof with
    | (none, r) => (none, { r with finished := true })
    | (some pos, r) =>
      let r := { r with buffer := r.buffer.drop (pos + r.boundaryMarker.length) }
      let r := (awaitMore twoLook (fun r => ((), r)) r).2
      if r.buffer.length < 2 ∨ r.buffer.take 2 = [0x2d, 0x2d] then (none, { r with finished := true })
      else
        match readPartHeaders [] { r with buffer := r.buffer.drop 2 } with
        | (none, r) => (none, { r with finished := true })
        | (some headers, r) => (some headers, { r with partActive := true })

theorem discardLoop_inl {r : MultipartReader ω} (h : discardLoop.step r = .inl r') :
    r.partActive = true ∧ ∃ x xs, r.readPartBody 512 = (x :: xs, r') := by
  unfold discardLoop at h
  dsimp only at h
  split_ifs at h with ha
  rcases hr : r.readPartBody 512 with ⟨_ | ⟨x, xs⟩, r₁⟩
  · rw [hr] at h
    cases h
  · rw [hr] at h
    cases h
    exact ⟨ha, x, xs, rfl⟩

theorem discardLoop_inr {r : MultipartReader ω} (h : discardLoop.step r = .inr r') :
    (r.partActive = true ∧ r.readPartBody 512 = ([], r')) ∨ (r.partActive = false ∧ r' = r) := by
  unfold discardLoop at h
  dsimp only at h
  split_ifs at h with ha
  · rcases hr : r.readPartBody 512 with ⟨_ | ⟨x, xs⟩, r₁⟩
    · rw [hr] at h
      cases h
      exact .inl ⟨ha, rfl⟩
    · rw [hr] at h
      cases h
  · cases h
    exact .inr ⟨Bool.eq_false_iff.mpr ha, rfl⟩

theorem discardBody_of_inactive (ha : r.partActive = false) : r.discardBody = r := by
  refine Loop.run_of_inr (if_neg ?_)
  rw [ha]
  exact Bool.false_ne_true

end MultipartReader

end Nhttp.Protocol
