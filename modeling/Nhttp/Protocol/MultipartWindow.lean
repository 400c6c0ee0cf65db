import Nhttp.Protocol.EmptyReads

/-!
# The buffer of a multipart reader

`multipart_reader` keeps what it has read ahead in one buffer, to which five loops append.

* `callVisited`, `runVisited`: the readers at every look of a call and of a run.
* `DelimiterNear`: the delimiter comes soon, or not much is to come.
* **`multipart_buffer_bounded`**: the bound holds in every run in which a delimiter is near wherever the
  reader looks for it without handing out octets.
-/

namespace Nhttp.Protocol

open Octets Reading Find Loops List

namespace MultipartReader

variable {ω β : Type} [Source ω UInt8] (r : MultipartReader ω) {r' : MultipartReader ω} {s : HttpHeaders × MultipartReader ω}

theorem partHeadersLoop_inl {s' : HttpHeaders × MultipartReader ω} (h : partHeadersLoop.step s = .inl s') :
    s'.2 = s.2.readHeaderLine.2 := by
  unfold partHeadersLoop at h
  dsimp only at h
  rcases hr : s.2.readHeaderLine with ⟨_ | line, r⟩
  · rw [hr] at h
    cases h
  · rw [hr] at h
    dsimp only at h
    split_ifs at h
    cases h
    rfl

theorem partHeadersLoop_inr {out : Option HttpHeaders × MultipartReader ω}
    (h : partHeadersLoop.step s = .inr out) : out.2 = s.2.readHeaderLine.2 := by
  unfold partHeadersLoop at h
  dsimp only at h
  rcases hr : s.2.readHeaderLine with ⟨_ | line, r⟩
  · rw [hr] at h
    cases h
    rfl
  · rw [hr] at h
    dsimp only at h
    split_ifs at h
    cases h
    rfl

/-! ## The readers at every look -/

def bodyVisited (r : MultipartReader ω) (n : ℕ) : List (MultipartReader ω) :=
  if r.partActive then (awaitLoop (bodyLook n) (bodyEof n)).visited r else []

def lineStarts (r : MultipartReader ω) : List (MultipartReader ω) := (partHeadersLoop.visited ([], r)).map Prod.snd

/-- The reader in which `next_part` has found the two octets after a delimiter, if it gets there. -/
def afterDelimiter (r : MultipartReader ω) : Option (MultipartReader ω) :=
  match r.discardBody.ensureDelimiterOrEof with
  | (none, _) => none
  | (some pos, r) => some { r with buffer := r.buffer.drop (pos + r.boundaryMarker.length) }

def atHeaders (r : MultipartReader ω) : Option (MultipartReader ω) :=
  r.afterDelimiter.bind fun r =>
    let r := (awaitMore twoLook (fun r => ((), r)) r).2
    if r.buffer.length < 2 ∨ r.buffer.take 2 = [0x2d, 0x2d] then none else some { r with buffer := r.buffer.drop 2 }

/-- The reader where `next_part` has ended, before its flags are set. -/
def nextReader (r : MultipartReader ω) : MultipartReader ω :=
  match r.afterDelimiter with
  | none => r.discardBody.ensureDelimiterOrEof.2
  | some r₁ =>
    match r.atHeaders with
    | none => (awaitMore twoLook (fun r => ((), r)) r₁).2
    | some r₂ => (readPartHeaders [] r₂).2

theorem nextPart_eq_nextReader {r : MultipartReader ω} (hf : r.finished = false) :
    r.nextPart.2.buffer = r.nextReader.buffer ∧ r.nextPart.2.boundaryMarker = r.nextReader.boundaryMarker := by
  unfold nextPart nextReader atHeaders afterDelimiter
  rw [if_neg (by rw [hf]; exact Bool.false_ne_true)]
  rcases r.discardBody.ensureDelimiterOrEof with ⟨_ | pos, r'⟩
  · exact ⟨rfl, rfl⟩
  · dsimp only [Option.bind]
    generalize ({ r' with buffer := r'.buffer.drop (pos + r'.boundaryMarker.length) } : MultipartReader ω) = r₁
    generalize (awaitMore twoLook (fun r => ((), r)) r₁).2 = r₂
    by_cases hend : r₂.buffer.length < 2 ∨ r₂.buffer.take 2 = [0x2d, 0x2d]
    · rw [if_pos hend, if_pos hend]
      exact ⟨rfl, rfl⟩
    · rw [if_neg hend, if_neg hend]
      dsimp only
      rcases readPartHeaders [] ({ r₂ with buffer := r₂.buffer.drop 2 } : MultipartReader ω) with ⟨_ | hs, r₃⟩
      · exact ⟨rfl, rfl⟩
      · exact ⟨rfl, rfl⟩

def callVisited (r : MultipartReader ω) : PartCall → List (MultipartReader ω)
  | .read n => r.bodyVisited n
  | .next =>
    if r.finished then []
    else
      ((discardLoop.visited r).flatMap fun t => t.bodyVisited 512) ++
        (awaitLoop delimiterLook notFound).visited r.discardBody ++
        (r.afterDelimiter.toList.flatMap fun t => (awaitLoop twoLook fun r => ((), r)).visited t) ++
        (r.atHeaders.toList.flatMap fun t => t.lineStarts.flatMap fun t' => (awaitLoop lineLook notFound).visited t')

def runVisited (r : MultipartReader ω) : List PartCall → List (MultipartReader ω)
  | [] => [r]
  | c :: cs => r :: r.callVisited c ++ (r.call c).2.runVisited cs

/-! ## Conditions -/

/-- A delimiter starts within `H + 4096` octets, or not much is to come. -/
def DelimiterNear (H : ℕ) (r : MultipartReader ω) : Prop :=
  (∃ p ≤ H + 4096, r.boundaryMarker <+: r.contents.drop p) ∨
    r.contents.length ≤ r.boundaryMarker.length + H + 8192

/-- The header lines that a call reads have at most `H` octets. -/
def LinesWithin (H : ℕ) (r : MultipartReader ω) : PartCall → Prop
  | .read _ => True
  | .next => ∀ t ∈ r.atHeaders, ∀ t' ∈ t.lineStarts, (t'.contents.takeWhile (· ≠ LF)).length ≤ H

def SearchesNear (H : ℕ) (r : MultipartReader ω) : PartCall → Prop
  | .read n => r.partActive = true → n = 0 → r.DelimiterNear H
  | .next => r.finished = false → r.partActive = false → r.DelimiterNear H

def RunMeets (C : MultipartReader ω → PartCall → Prop) (r : MultipartReader ω) : List PartCall → Prop
  | [] => True
  | c :: cs => C r c ∧ RunMeets C (r.call c).2 cs

/-! ## Bounds -/

theorem length_fillMore_le : r.fillMore.2.buffer.length ≤ r.buffer.length + 4096 := by
  have hlen := Source.length_read_le r.source 4096
  unfold fillMore
  split_ifs
  · exact Nat.le_add_right _ _
  · rcases hr : Readable.read r.source 4096 with ⟨_ | ⟨b, got⟩, source⟩
    · exact Nat.le_add_right _ _
    · rw [hr] at hlen
      rw [length_append]
      exact Nat.add_le_add_left hlen _

theorem length_buffer_le : r.buffer.length ≤ r.contents.length := r.buffer_prefix.length_le

/-- The marker is `m`, and the buffer has room for `H` octets more than it and two blocks. -/
structure Bounded (m : Bytes) (H : ℕ) (r : MultipartReader ω) : Prop where
  marker : r.boundaryMarker = m
  length : r.buffer.length ≤ m.length + H + 8192

/-- Nothing but octets at the front of the buffer is taken away. -/
structure Takes (r r' : MultipartReader ω) : Prop where
  marker : r'.boundaryMarker = r.boundaryMarker
  length : r'.buffer.length ≤ r.buffer.length

omit [Source ω UInt8] in
theorem Bounded.takes {m : Bytes} {H : ℕ} {r : MultipartReader ω} (h : Bounded m H r) (ht : Takes r r') :
    Bounded m H r' :=
  ⟨ht.marker.trans h.marker, ht.length.trans h.length⟩

omit [Source ω UInt8] in
theorem Takes.refl : Takes r r := ⟨rfl, Nat.le_refl _⟩

omit [Source ω UInt8] in
theorem takes_drop (k : ℕ) : Takes r { r with buffer := r.buffer.drop k } :=
  ⟨rfl, (drop_suffix _ _).length_le⟩

omit [Source ω UInt8] in
theorem takes_handOut (k : ℕ) :
    Takes r ((r.handOut k).getD ([], { r with partActive := false })).2 := by
  unfold handOut
  split_ifs
  · exact r.takes_drop k
  · exact ⟨rfl, Nat.le_refl _⟩

section Bounds

variable {m : Bytes} {H : ℕ} {r : MultipartReader ω}

/-- **A loop that reads more only with room for it** keeps the bound, at every look and at its end. -/
theorem await_bounded {look : MultipartReader ω → Option (β × MultipartReader ω)}
    {atEof : MultipartReader ω → β × MultipartReader ω} (hr : r.Bounded m H)
    (hfill : ∀ t, t.contents = r.contents → t.Bounded m H → look t = none →
      t.fillMore.2.buffer.length ≤ m.length + H + 8192)
    (hlook : ∀ t out, look t = some out → Takes t out.2) (heof : ∀ t, Takes t (atEof t).2) :
    (∀ t ∈ (awaitLoop look atEof).visited r, t.Bounded m H) ∧ (awaitMore look atEof r).2.Bounded m H := by
  have hinv : ∀ t ∈ (awaitLoop look atEof).visited r, t.Bounded m H ∧ t.contents = r.contents := by
    refine Loop.visited_inv (C := fun _ => True) ?_ ⟨hr, rfl⟩ fun _ _ => trivial
    rintro t t' ⟨ht, hc⟩ - hstep
    obtain ⟨hnone, -, rfl⟩ := awaitLoop_inl hstep
    obtain ⟨hc', hk'⟩ := t.fillMore_spec
    exact ⟨⟨hk'.marker.trans ht.marker, hfill t hc ht hnone⟩, hc'.trans hc⟩
  refine ⟨fun t ht => (hinv t ht).1, ?_⟩
  obtain ⟨t, ht, hlast⟩ := (awaitLoop look atEof).exists_last r
  obtain hsome | ⟨-, -, hend⟩ := awaitLoop_inr hlast
  · exact (hinv t ht).1.takes (hlook t _ hsome)
  · rw [awaitMore, hend]
    exact (hinv t ht).1.takes (heof t)

variable {t : MultipartReader ω}

theorem DelimiterNear.fillMore (h : r.DelimiterNear H) (hm : r.boundaryMarker = m)
    (hc : t.contents = r.contents) (hnone : find m t.buffer = none) :
    t.fillMore.2.buffer.length ≤ m.length + H + 8192 := by
  unfold DelimiterNear at h
  rw [hm] at h
  obtain ⟨p, hp, hmark⟩ | hshort := h
  · have hlen : t.buffer.length < p + m.length := by
      by_contra hle
      have hle := Nat.le_of_not_lt hle
      have hbuf : t.buffer.drop p <+: r.contents.drop p := by
        rw [← hc]
        exact t.buffer_prefix.drop p
      have hin : m <+: t.buffer.drop p :=
        prefix_of_prefix_length_le hmark hbuf (by rw [length_drop]; omega)
      exact find_eq_none_iff.mp hnone p (by omega) hin
    have := t.length_fillMore_le
    omega
  · have hle := t.fillMore.2.length_buffer_le
    rw [t.fillMore_spec.1, hc] at hle
    omega

theorem delimiter_bounded (h : r.DelimiterNear H) (hr : r.Bounded m H) :
    (∀ t ∈ (awaitLoop delimiterLook notFound).visited r, t.Bounded m H) ∧
      r.ensureDelimiterOrEof.2.Bounded m H := by
  refine await_bounded hr (fun t hc ht hnone => ?_) (fun t out hsome => ?_) Takes.refl
  · have hfind := Option.map_eq_none_iff.mp hnone
    rw [ht.marker] at hfind
    exact h.fillMore hr.marker hc hfind
  · obtain ⟨pos, -, rfl⟩ := Option.map_eq_some_iff.mp hsome
    exact .refl t

theorem two_bounded (hr : r.Bounded m H) :
    (∀ t ∈ (awaitLoop twoLook fun r => ((), r)).visited r, t.Bounded m H) ∧
      (awaitMore twoLook (fun r => ((), r)) r).2.Bounded m H := by
  refine await_bounded hr (fun t _ _ hnone => ?_) (fun t out hsome => ?_) Takes.refl
  · unfold twoLook at hnone
    split_ifs at hnone with hlen
    have := t.length_fillMore_le
    omega
  · unfold twoLook at hsome
    split_ifs at hsome
    cases hsome
    exact .refl t

theorem line_bounded (hline : (r.contents.takeWhile (· ≠ LF)).length ≤ H) (hr : r.Bounded m H) :
    (∀ t ∈ (awaitLoop lineLook notFound).visited r, t.Bounded m H) ∧ r.readHeaderLine.2.Bounded m H := by
  refine await_bounded hr (fun t hc _ hnone => ?_) (fun t out hsome => ?_) Takes.refl
  · -- the buffer is a part of the line
    have hlf : LF ∉ t.buffer := lineAt_eq_none.mp (Option.map_eq_none_iff.mp hnone)
    have hpos : ∀ c ∈ t.buffer, decide (c ≠ LF) = true := fun c hc => decide_eq_true fun he => hlf (he ▸ hc)
    have hle : t.buffer.length ≤ (r.contents.takeWhile (· ≠ LF)).length := by
      rw [← hc, contents, takeWhile_append_of_pos hpos, length_append]
      exact Nat.le_add_right _ _
    have := t.length_fillMore_le
    omega
  · obtain ⟨l, -, rfl⟩ := Option.map_eq_some_iff.mp hsome
    exact t.takes_drop _

omit [Source ω UInt8] in
theorem bodyLook_eq_none {n : ℕ} (h : bodyLook n t = none) :
    find t.boundaryMarker t.buffer = none ∧ (n = 0 ∨ t.buffer.length ≤ t.boundaryMarker.length) := by
  unfold bodyLook at h
  cases hf : find t.boundaryMarker t.buffer with
  | some pos =>
    rw [hf] at h
    cases h
  | none =>
    rw [hf] at h
    refine ⟨rfl, ?_⟩
    split_ifs at h with hlen
    · unfold handOut at h
      split_ifs at h with hk
      exact .inl (by omega)
    · exact .inr (Nat.le_of_not_lt hlen)

omit [Source ω UInt8] in
theorem bodyLook_eq_some {n : ℕ} {out : Bytes × MultipartReader ω}
    (h : bodyLook n t = some out) : ∃ k, out = (t.handOut k).getD ([], { t with partActive := false }) := by
  unfold bodyLook at h
  cases hf : find t.boundaryMarker t.buffer with
  | some pos =>
    rw [hf] at h
    cases h
    exact ⟨_, rfl⟩
  | none =>
    rw [hf] at h
    dsimp only at h
    split_ifs at h
    refine ⟨min n (t.buffer.length - (t.boundaryMarker.length - 1)), ?_⟩
    rw [h]
    rfl

theorem body_bounded {n : ℕ} (h : r.partActive = true → n = 0 → r.DelimiterNear H) (hr : r.Bounded m H) :
    (∀ t ∈ r.bodyVisited n, t.Bounded m H) ∧ (r.readPartBody n).2.Bounded m H := by
  rw [readPartBody, bodyVisited]
  by_cases ha : r.partActive = true
  · rw [if_pos ha, if_pos ha]
    refine await_bounded hr (fun t hc ht hnone => ?_) (fun t out hsome => ?_) fun t => t.takes_handOut _
    · obtain ⟨hfind, hn | hlen⟩ := bodyLook_eq_none hnone
      · rw [ht.marker] at hfind
        exact (h ha hn).fillMore hr.marker hc hfind
      · have := t.length_fillMore_le
        rw [ht.marker] at hlen
        omega
    · obtain ⟨k, rfl⟩ := bodyLook_eq_some hsome
      exact t.takes_handOut k
  · rw [if_neg ha, if_neg ha]
    exact ⟨fun t ht => absurd ht not_mem_nil, hr⟩

theorem readPartBody_frame (r : MultipartReader ω) (n : ℕ) :
    (r.readPartBody n).2.boundaryMarker = r.boundaryMarker ∧
      ((r.readPartBody n).1 ≠ [] → (r.readPartBody n).2.partActive = r.partActive) := by
  have hout : ∀ (t : MultipartReader ω) (k : ℕ), Kept r t →
      ((t.handOut k).getD ([], { t with partActive := false })).2.boundaryMarker = r.boundaryMarker ∧
        (((t.handOut k).getD ([], { t with partActive := false })).1 ≠ [] →
          ((t.handOut k).getD ([], { t with partActive := false })).2.partActive = r.partActive) := by
    intro t k hk
    unfold handOut
    split_ifs
    · exact ⟨hk.marker, fun _ => hk.active⟩
    · exact ⟨hk.marker, fun hne => absurd rfl hne⟩
  rw [readPartBody]
  split_ifs
  · refine awaitMore_rule (Q := fun out => out.2.boundaryMarker = r.boundaryMarker ∧
      (out.1 ≠ [] → out.2.partActive = r.partActive)) r (fun t out _ hk hl => ?_) (fun t _ hk _ _ => hout t _ hk)
    obtain ⟨k, rfl⟩ := bodyLook_eq_some hl
    exact hout t k hk
  · exact ⟨rfl, fun _ => rfl⟩

theorem delimiterNear_of_nil {r' : MultipartReader ω} (ha : r.partActive = true) {n : ℕ} (hn : 0 < n)
    (h : r.readPartBody n = ([], r')) (H : ℕ) : r'.DelimiterNear H := by
  have hend : r.AtPartEnd := by
    by_contra hno
    exact readPartBody_ne_nil ha hno hn (congrArg Prod.fst h)
  have happ := r.readPartBody_append n
  have hmark := (r.readPartBody_frame n).1
  rw [h, nil_append] at happ
  rw [h] at hmark
  obtain hnil | hpre := hend
  · refine .inr ?_
    rw [happ, hnil]
    exact Nat.zero_le _
  · refine .inl ⟨0, Nat.zero_le _, ?_⟩
    rw [happ, hmark]
    exact hpre

theorem discard_bounded (h : r.partActive = false → r.DelimiterNear H) (hr : r.Bounded m H) :
    (∀ t ∈ (discardLoop.visited r).flatMap fun t => t.bodyVisited 512, t.Bounded m H) ∧
      r.discardBody.Bounded m H ∧ r.discardBody.DelimiterNear H := by
  have hread : ∀ t : MultipartReader ω, t.Bounded m H →
      (∀ t' ∈ t.bodyVisited 512, t'.Bounded m H) ∧ (t.readPartBody 512).2.Bounded m H :=
    fun t ht => body_bounded (fun _ hzero => absurd hzero (by decide)) ht
  have hinv : ∀ t ∈ discardLoop.visited r, t.Bounded m H ∧ (t.partActive = false → t.DelimiterNear H) := by
    refine Loop.visited_inv (C := fun _ => True) ?_ ⟨hr, h⟩ fun _ _ => trivial
    rintro t t' ⟨ht, -⟩ - hstep
    obtain ⟨ha, x, xs, hb⟩ := discardLoop_inl hstep
    have hle := (hread t ht).2
    have hactive := (t.readPartBody_frame 512).2
    rw [hb] at hle hactive
    refine ⟨hle, fun hno => ?_⟩
    rw [hactive (cons_ne_nil _ _), ha] at hno
    cases hno
  refine ⟨fun t' ht' => ?_, ?_⟩
  · obtain ⟨t, ht, hmem⟩ := mem_flatMap.mp ht'
    exact (hread t (hinv t ht).1).1 t' hmem
  · obtain ⟨t, ht, hlast⟩ := discardLoop.exists_last r
    obtain ⟨hle, hnear⟩ := hinv t ht
    obtain ⟨ha, hb⟩ | ⟨ha, heq⟩ := discardLoop_inr hlast
    · have hle' := (hread t hle).2
      rw [hb] at hle'
      exact ⟨hle', delimiterNear_of_nil ha (by decide) hb H⟩
    · rw [discardBody, heq]
      exact ⟨hle, hnear ha⟩

theorem headers_bounded (hlines : ∀ t ∈ r.lineStarts, (t.contents.takeWhile (· ≠ LF)).length ≤ H)
    (hr : r.Bounded m H) :
    (∀ t ∈ r.lineStarts.flatMap fun t => (awaitLoop lineLook notFound).visited t, t.Bounded m H) ∧
      (readPartHeaders [] r).2.Bounded m H := by
  have hstart : ∀ s ∈ partHeadersLoop.visited ([], r), (s.2.contents.takeWhile (· ≠ LF)).length ≤ H :=
    fun s hs => hlines s.2 (mem_map_of_mem hs)
  have hinv : ∀ s ∈ partHeadersLoop.visited ([], r), s.2.Bounded m H := by
    refine Loop.visited_inv (I := fun s : HttpHeaders × MultipartReader ω => s.2.Bounded m H) ?_ hr hstart
    intro s s' hs hline hstep
    rw [partHeadersLoop_inl hstep]
    exact (line_bounded hline hs).2
  refine ⟨fun t' ht' => ?_, ?_⟩
  · obtain ⟨t, ht, hmem⟩ := mem_flatMap.mp ht'
    obtain ⟨s, hs, rfl⟩ := mem_map.mp ht
    exact (line_bounded (hstart s hs) (hinv s hs)).1 t' hmem
  · obtain ⟨s, hs, hlast⟩ := partHeadersLoop.exists_last ([], r)
    rw [readPartHeaders, partHeadersLoop_inr hlast]
    exact (line_bounded (hstart s hs) (hinv s hs)).2

theorem next_bounded (hf : r.finished = false) (hnear : r.partActive = false → r.DelimiterNear H)
    (hlines : ∀ t ∈ r.atHeaders, ∀ t' ∈ t.lineStarts, (t'.contents.takeWhile (· ≠ LF)).length ≤ H)
    (hr : r.Bounded m H) : (∀ t ∈ r.callVisited .next, t.Bounded m H) ∧ r.nextPart.2.Bounded m H := by
  obtain ⟨hdiscard, hr1, hnear1⟩ := discard_bounded hnear hr
  obtain ⟨hdelimiter, hr2⟩ := delimiter_bounded hnear1 hr1
  have hafter : ∀ t ∈ r.afterDelimiter, t.Bounded m H := by
    intro t ht
    unfold afterDelimiter at ht
    rcases he : r.discardBody.ensureDelimiterOrEof with ⟨_ | pos, r₂⟩
    · rw [he] at ht
      cases ht
    · rw [he] at ht hr2
      cases ht
      exact hr2.takes (takes_drop _ _)
  have hheaders : ∀ t ∈ r.atHeaders, t.Bounded m H := by
    intro t ht
    obtain ⟨t₁, ht1, hcond⟩ := Option.bind_eq_some_iff.mp ht
    dsimp only at hcond
    split_ifs at hcond
    cases hcond
    exact (two_bounded (hafter t₁ ht1)).2.takes (takes_drop _ _)
  constructor
  · intro t ht
    rw [callVisited, if_neg (by rw [hf]; exact Bool.false_ne_true)] at ht
    simp only [mem_append, mem_flatMap, Option.mem_toList] at ht
    obtain ((ht | ht) | ⟨t₁, ht1, ht⟩) | ⟨t₁, ht1, ht⟩ := ht
    · exact hdiscard t (mem_flatMap.mpr ht)
    · exact hdelimiter t ht
    · exact (two_bounded (hafter t₁ ht1)).1 t ht
    · exact (headers_bounded (hlines t₁ ht1) (hheaders t₁ ht1)).1 t (mem_flatMap.mpr ht)
  · have hend : r.nextReader.Bounded m H := by
      unfold nextReader
      cases ha : r.afterDelimiter with
      | none => exact hr2
      | some r₁ =>
        cases hh : r.atHeaders with
        | none => exact (two_bounded (hafter r₁ ha)).2
        | some r₂ => exact (headers_bounded (hlines r₂ hh) (hheaders r₂ hh)).2
    obtain ⟨hbuf, hmark⟩ := nextPart_eq_nextReader hf
    exact ⟨hmark.trans hend.marker, hbuf ▸ hend.length⟩

/-! ## Runs -/

theorem call_bounded {c : PartCall} (hlines : r.LinesWithin H c) (hnear : r.SearchesNear H c) (hr : r.Bounded m H) :
    (∀ t ∈ r.callVisited c, t.Bounded m H) ∧ (r.call c).2.Bounded m H := by
  cases c with
  | read n => exact body_bounded hnear hr
  | next =>
    cases hf : r.finished with
    | false => exact next_bounded hf (hnear hf) hlines hr
    | true =>
      have hdone : r.nextPart = (none, r) := if_pos hf
      rw [callVisited, if_pos hf, call, hdone]
      exact ⟨fun t ht => absurd ht not_mem_nil, hr⟩

theorem run_bounded {cs : List PartCall} (hlines : r.RunMeets (LinesWithin H) cs)
    (hnear : r.RunMeets (SearchesNear H) cs) (hr : r.Bounded m H) : ∀ t ∈ r.runVisited cs, t.Bounded m H := by
  induction cs generalizing r with
  | nil => exact forall_mem_singleton.mpr hr
  | cons c cs ih =>
    obtain ⟨hcall, hr'⟩ := call_bounded hlines.1 hnear.1 hr
    intro t ht
    rw [runVisited, cons_append, mem_cons, mem_append] at ht
    obtain rfl | ht | ht := ht
    · exact hr
    · exact hcall t ht
    · exact ih hlines.2 hnear.2 hr' t ht

end Bounds

/-- **The look-ahead of a multipart reader is bounded** by the marker, the longest header line and two blocks, in
every run in which a delimiter is near wherever the reader looks for one without handing out octets. -/
theorem multipart_buffer_bounded (source : ω) (boundary : Bytes) {H : ℕ} {cs : List PartCall}
    (hlines : (new source boundary).RunMeets (LinesWithin H) cs)
    (hnear : (new source boundary).RunMeets (SearchesNear H) cs) :
    ∀ t ∈ (new source boundary).runVisited cs,
      t.buffer.length ≤ (new source boundary).boundaryMarker.length + H + 8192 := by
  have hnew : (new source boundary).Bounded (new source boundary).boundaryMarker H := by
    refine ⟨rfl, ?_⟩
    change 2 ≤ _
    omega
  exact fun t ht => (run_bounded hlines hnear hnew t ht).length

def onePart : MultipartReader (Segments UInt8) :=
  new ⟨[ascii "--B\r\na: b\r\n\r\nhello\r\n--B--"], by decide⟩ (ascii "B")

theorem multipart_buffer_bounded_one :
    (onePart.runVisited [.next, .read 3, .next]).all (fun t => t.buffer.length ≤ 5 + 5 + 8192) = true := by
  have hlines : onePart.RunMeets (LinesWithin 5) [.next, .read 3, .next] := by
    unfold RunMeets LinesWithin
    refine ⟨?_, trivial, ?_, trivial⟩
    · decide +kernel
    · decide +kernel
  have hnear : onePart.RunMeets (SearchesNear 5) [.next, .read 3, .next] := by
    refine ⟨?_, ?_, ?_, trivial⟩
    · exact fun _ _ => .inl ⟨0, Nat.zero_le _, by decide +kernel⟩
    · intro _ hzero
      cases hzero
    · intro _ hno
      have hactive : ((onePart.call .next).2.call (.read 3)).2.partActive = true := by decide +kernel
      rw [hactive] at hno
      cases hno
  refine all_eq_true.mpr fun t ht => decide_eq_true ?_
  exact multipart_buffer_bounded _ _ hlines hnear t ht

/-! ## A long preamble -/

theorem ensureDelimiterOrEof_of_none {r : MultipartReader ω} (h : find r.boundaryMarker r.contents = none) :
    r.ensureDelimiterOrEof.1 = none ∧ r.ensureDelimiterOrEof.2.buffer = r.contents := by
  refine awaitMore_rule (Q := fun out => out.1 = none ∧ out.2.buffer = r.contents) r (fun t out hc hk hl => ?_)
    fun t hc _ _ he => ⟨rfl, by rw [← hc, contents_of_eof he, notFound]⟩
  obtain ⟨pos, hpos, -⟩ := Option.map_eq_some_iff.mp hl
  obtain ⟨hle, hmark, -⟩ := find_eq_some_iff.mp hpos
  rw [hk.marker] at hmark
  refine absurd (hmark.trans (t.buffer_prefix.drop pos)) ?_
  rw [hc]
  exact find_eq_none_iff.mp h pos (by rw [← hc]; exact hle.trans t.length_buffer_le)

theorem exists_whole_buffer {r : MultipartReader ω} (hf : r.finished = false) (ha : r.partActive = false)
    (h : find r.boundaryMarker r.contents = none) :
    r.atHeaders = none ∧ ∃ t ∈ r.callVisited .next, t.buffer = r.contents := by
  obtain ⟨hnone, hbuf⟩ := ensureDelimiterOrEof_of_none h
  have hdiscard := discardBody_of_inactive ha
  constructor
  · unfold atHeaders afterDelimiter
    rw [hdiscard]
    rcases he : r.ensureDelimiterOrEof with ⟨_ | pos, r'⟩
    · rfl
    · rw [he] at hnone
      cases hnone
  · obtain ⟨t, ht, hlast⟩ := (awaitLoop delimiterLook notFound).exists_last r
    change (awaitLoop delimiterLook notFound).step t = .inr r.ensureDelimiterOrEof at hlast
    refine ⟨t, ?_, ?_⟩
    · rw [callVisited, if_neg (by rw [hf]; exact Bool.false_ne_true), hdiscard]
      exact mem_append_left _ (mem_append_left _ (mem_append_right _ ht))
    · obtain hsome | ⟨-, -, hend⟩ := awaitLoop_inr hlast
      · obtain ⟨pos, -, hout⟩ := Option.map_eq_some_iff.mp hsome
        rw [← hout] at hnone
        cases hnone
      · rw [hend] at hbuf
        exact hbuf

/-- A reader for `n` octets without a delimiter. -/
def longPreamble (n : ℕ) : MultipartReader (Segments UInt8) :=
  new (Segments.singles (List.replicate n 0x61)) (ascii "B")

theorem contents_longPreamble (n : ℕ) : (longPreamble n).contents = CR :: LF :: List.replicate n 0x61 := by
  have hsingles := Segments.contents_singles (List.replicate n (0x61 : UInt8))
  unfold longPreamble new contents
  rw [hsingles]
  rfl

theorem find_longPreamble (n : ℕ) : find (longPreamble n).boundaryMarker (longPreamble n).contents = none := by
  refine find_eq_none_iff.mpr fun i _ hp => ?_
  rw [contents_longPreamble] at hp
  obtain ⟨rest, hrest⟩ := hp
  -- the third octet of the marker is a dash
  have hdash := congrArg (·[2]?) hrest
  rw [getElem?_drop] at hdash
  have hmem : (0x2d : UInt8) ∈ CR :: LF :: List.replicate n 0x61 := mem_of_getElem? hdash.symm
  rw [mem_cons, mem_cons, mem_replicate] at hmem
  obtain h | h | ⟨-, h⟩ := hmem
  · exact absurd h (by decide)
  · exact absurd h (by decide)
  · exact absurd h (by decide)

theorem preamble_buffered (n : ℕ) :
    (longPreamble n).RunMeets (LinesWithin 0) [.next] ∧
      ∃ t ∈ (longPreamble n).runVisited [.next], t.buffer.length = n + 2 := by
  obtain ⟨hnone, t, ht, hbuf⟩ := exists_whole_buffer rfl rfl (find_longPreamble n)
  refine ⟨⟨?_, trivial⟩, t, ?_, ?_⟩
  · intro t ht
    rw [hnone] at ht
    cases ht
  · exact mem_cons_of_mem _ (mem_append_left _ ht)
  · rw [hbuf, contents_longPreamble, length_cons, length_cons, length_replicate]

/-- A preamble of twenty thousand octets. -/
theorem multipart_buffers_preamble :
    (longPreamble 20000).RunMeets (LinesWithin 0) [.next] ∧
      ∃ t ∈ (longPreamble 20000).runVisited [.next],
        (longPreamble 20000).boundaryMarker.length + 0 + 8192 < t.buffer.length := by
  have hmark : ∀ n, (longPreamble n).boundaryMarker.length = 5 := fun _ => rfl
  obtain ⟨hlines, t, ht, hlen⟩ := preamble_buffered 20000
  refine ⟨hlines, t, ht, ?_⟩
  rw [hlen, hmark]
  omega

end MultipartReader

end Nhttp.Protocol
