import Nhttp.Protocol.Chunked

/-!
# What the chunked decoder delivers and where it stops

`scan bs` says, for octets `bs` as a whole, which body a `ChunkedDecoder` delivers from them and how many
octets lie behind the point where it stops.

* `ChunkedDecoder.read_moves`: a read delivers the next part of the body and keeps the stopping point.
* a `ChunkedDecoder` is a `Source` whose contents are the decoded body.
-/

namespace Nhttp.Protocol

open Octets Reading
open List hiding after lt_of_le_of_lt

/-! ## Scanning octets as a whole -/

/-- The body in some octets, and how many octets follow the point where the decoder stops. -/
structure Scan where
  body : Bytes
  past : ℕ

def trailersPast (bs : Bytes) : ℕ :=
  match _h : lineAt bs with
  | none => 0
  | some (line, k) => if line = [] then (bs.drop k).length else trailersPast (bs.drop k)
termination_by bs.length
decreasing_by
  have := lineAt_length _h
  simp only [length_drop]
  omega

/-- The octets from the start of a chunk on. -/
def scan (bs : Bytes) : Scan :=
  match _h : lineAt bs with
  | none => ⟨[], 0⟩
  | some (line, k) =>
    match chunkSize line with
    | none => ⟨[], (bs.drop k).length⟩
    | some 0 => ⟨[], trailersPast (bs.drop k)⟩
    | some (size + 1) =>
      let s := scan ((bs.drop k).drop (size + 1 + 2))
      ⟨(bs.drop k).take (size + 1) ++ s.body, s.past⟩
termination_by bs.length
decreasing_by
  have := lineAt_length _h
  simp only [length_drop]
  omega

/-- The octets from inside a chunk on, `size` octets before its end. -/
def scanChunk (size : ℕ) (bs : Bytes) : Scan :=
  ⟨bs.take size ++ (scan (bs.drop (size + 2))).body, (scan (bs.drop (size + 2))).past⟩

section scan

variable {bs line : Bytes} {k : ℕ}

theorem trailersPast_of_none (h : lineAt bs = none) : trailersPast bs = 0 := by
  rw [trailersPast]
  split
  · rfl
  · next h' => rw [h] at h'; cases h'

theorem trailersPast_of_some (h : lineAt bs = some (line, k)) :
    trailersPast bs = if line = [] then (bs.drop k).length else trailersPast (bs.drop k) := by
  rw [trailersPast]
  split
  · next h' => rw [h] at h'; cases h'
  · next h' => rw [h] at h'; cases h'; rfl

theorem scan_of_none (h : lineAt bs = none) : scan bs = ⟨[], 0⟩ := by
  rw [scan]
  split
  · rfl
  · next h' => rw [h] at h'; cases h'

theorem scan_of_some (h : lineAt bs = some (line, k)) :
    scan bs = match chunkSize line with
      | none => ⟨[], (bs.drop k).length⟩
      | some 0 => ⟨[], trailersPast (bs.drop k)⟩
      | some (size + 1) => scanChunk (size + 1) (bs.drop k) := by
  rw [scan]
  split
  · next h' => rw [h] at h'; cases h'
  · next h' => rw [h] at h'; cases h'; rfl

theorem trailersPast_le (bs : Bytes) : trailersPast bs ≤ bs.length := by
  fun_induction trailersPast bs with
  | case1 => exact Nat.zero_le _
  | case2 => exact (drop_suffix _ _).length_le
  | case3 bs line k _ _ ih => exact ih.trans (drop_suffix _ _).length_le

theorem scan_past_le (bs : Bytes) : (scan bs).past ≤ bs.length := by
  fun_induction scan bs with
  | case1 => exact Nat.zero_le _
  | case2 => exact (drop_suffix _ _).length_le
  | case3 bs line k _ _ => exact (trailersPast_le _).trans (drop_suffix _ _).length_le
  | case4 bs line k _ size _ =>
    rename_i s ih
    exact ih.trans (((drop_suffix _ _).trans (drop_suffix _ _)).length_le)

theorem scan_past_of_some (h : lineAt bs = some (line, k)) : (scan bs).past ≤ (bs.drop k).length := by
  rw [scan_of_some h]
  split
  · exact le_rfl
  · exact trailersPast_le _
  · exact (scan_past_le _).trans (drop_suffix _ _).length_le

theorem trailersPast_of_some_le (h : lineAt bs = some (line, k)) :
    trailersPast bs ≤ (bs.drop k).length := by
  rw [trailersPast_of_some h]
  split_ifs
  · exact le_rfl
  · exact trailersPast_le _

theorem scan_short (h : bs.length < 2) : scan bs = ⟨[], 0⟩ := by
  match bs, h with
  | [], _ => exact scan_of_none rfl
  | [b], _ =>
    by_cases hb : b = LF
    · subst hb
      exact scan_of_some (show lineAt [LF] = some ([], 1) from rfl)
    · exact scan_of_none (lineAt_eq_none.mpr (by simpa using Ne.symm hb))

end scan

namespace ChunkedDecoder

variable {σ : Type} [Source σ UInt8]

/-! ## Filling -/

section fill

variable {p : Bytes → Bool} {d : ChunkedDecoder σ}

theorem fillMore_source (h : d.eofSource = false) :
    d.fillMore.source = (Readable.read d.source 4096).2 := by
  unfold fillMore
  rw [if_neg (by simp [h])]
  split_ifs <;> rfl

/-- `d'` is in the same chunk as `d`, at the same place. -/
structure SamePlace (d d' : ChunkedDecoder σ) : Prop where
  finished : d'.finished = d.finished
  remaining : d'.remainingInChunk = d.remainingInChunk
  needNew : d'.needNewChunk = d.needNewChunk

theorem SamePlace.trans {d₁ d₂ d₃ : ChunkedDecoder σ} (h : SamePlace d₁ d₂) (h' : SamePlace d₂ d₃) :
    SamePlace d₁ d₃ :=
  ⟨h'.1.trans h.1, h'.2.trans h.2, h'.3.trans h.3⟩

theorem samePlace_fillMore (d : ChunkedDecoder σ) : SamePlace d d.fillMore := by
  unfold fillMore
  split_ifs <;> exact ⟨rfl, rfl, rfl⟩

theorem samePlace_fillUntil (p : Bytes → Bool) (d : ChunkedDecoder σ) :
    SamePlace d (d.fillUntil p) := by
  fun_induction fillUntil p d with
  | case1 | case2 => exact ⟨rfl, rfl, rfl⟩
  | case3 d _ _ ih => exact (samePlace_fillMore d).trans ih

theorem fillUntil_done (p : Bytes → Bool) (d : ChunkedDecoder σ) :
    p (d.fillUntil p).buffer = true ∨ Source.contents (d.fillUntil p).source = [] := by
  fun_induction fillUntil p d with
  | case1 d h => exact .inl h
  | case2 d _ h => exact .inr (d.contents_of_eof h)
  | case3 _ _ _ ih => exact ih

/-- **Minimal fill.** Nothing is read once only what stands behind the goal is to come. -/
theorem fetched_fillUntil {t : ℕ}
    (h : ∀ b c, b ++ c = d.rest → p b = false → t < c.length ∨ c = []) :
    Fetched 4096 t d.source (d.fillUntil p).source := by
  fun_induction fillUntil p d with
  | case1 | case2 => exact .refl _
  | case3 d hp he ih =>
    have hd := h d.buffer (Source.contents d.source) rfl (by simpa using hp)
    have hr := ih (by rwa [rest_fillMore])
    rw [fillMore_source (by simpa using he)] at hr
    exact .step (hd.imp_right fun h0 => by rw [left, h0]; rfl) hr

end fill

section line

variable {d : ChunkedDecoder σ} {t : ℕ}

theorem readLine_of_none (h : lineAt d.rest = none) : ∃ d', d.readLine = (none, d') ∧
    SamePlace d d' ∧ Source.contents d'.source = [] ∧ Fetched 4096 0 d.source d'.source := by
  refine ⟨d.fillUntil hasLine, ?_, samePlace_fillUntil _ d, ?_, ?_⟩
  · have hb : LF ∉ (d.fillUntil hasLine).buffer := fun hm =>
      lineAt_eq_none.mp h (by
        rw [← rest_fillUntil hasLine d]
        exact mem_append_left _ hm)
    rw [readLine]
    simp only [lineAt_eq_none.mpr hb]
  · obtain hl | hl := fillUntil_done hasLine d
    · refine absurd ?_ (lineAt_eq_none.mp h)
      rw [← rest_fillUntil hasLine d]
      exact mem_append_left _ (by simpa [hasLine] using hl)
    · exact hl
  · refine fetched_fillUntil fun b c _ _ => ?_
    obtain rfl | hc := eq_or_ne c []
    · exact .inr rfl
    · exact .inl (length_pos_iff.mpr hc)

theorem readLine_of_some {line : Bytes} {k : ℕ} (h : lineAt d.rest = some (line, k)) :
    ∃ d', d.readLine = (some line, d') ∧ SamePlace d d' ∧ d'.rest = d.rest.drop k ∧
      ∀ t ≤ (d.rest.drop k).length, Fetched 4096 t d.source d'.source := by
  have hr : (d.fillUntil hasLine).rest = d.rest := rest_fillUntil _ d
  have hsome : lineAt (d.fillUntil hasLine).buffer = some (line, k) := by
    cases hl : lineAt (d.fillUntil hasLine).buffer with
    | none =>
      -- without a line feed in the buffer the source is at its end, and there is no line at all
      obtain hm | hc := fillUntil_done hasLine d
      · exact absurd (by simpa [hasLine] using hm) (lineAt_eq_none.mp hl)
      · rw [← hr, rest, hc, append_nil, hl] at h
        cases h
    | some x =>
      have := lineAt_append hl (Source.contents (d.fillUntil hasLine).source)
      rw [← rest, hr, h] at this
      exact this.symm
  refine ⟨{ d.fillUntil hasLine with buffer := (d.fillUntil hasLine).buffer.drop k }, ?_,
    ⟨(samePlace_fillUntil hasLine d).1, (samePlace_fillUntil hasLine d).2,
      (samePlace_fillUntil hasLine d).3⟩, ?_, fun t ht => ?_⟩
  · rw [readLine]
    simp only [hsome]
  · have hk := (lineAt_length hsome).2
    rw [← hr, rest, rest, drop_append_of_le_length hk]
  · refine fetched_fillUntil fun b c hbc hp => .inl ?_
    rw [← hbc] at h ht
    have hk := lineAt_append_of_not_mem (by simpa [hasLine] using hp) h
    rw [length_drop, length_append] at ht
    have := (lineAt_length h).2
    rw [length_append] at this
    omega

theorem skipTrailers_spec (d : ChunkedDecoder σ) :
    left d.skipTrailers.source ≤ trailersPast d.rest ∧
      Fetched 4096 (trailersPast d.rest) d.source d.skipTrailers.source := by
  rw [skipTrailers]
  cases h : lineAt d.rest with
  | none =>
    obtain ⟨d', he, -, hc, hf⟩ := readLine_of_none h
    rw [he, trailersPast_of_none h]
    exact ⟨by rw [left, hc]; rfl, hf⟩
  | some x =>
    obtain ⟨line, k⟩ := x
    obtain ⟨d', he, -, hr, hf⟩ := readLine_of_some h
    have hlt := length_rest_readLine d he
    have hf := hf _ (trailersPast_of_some_le h)
    rw [he]
    simp only
    rw [trailersPast_of_some h, ← hr] at hf ⊢
    split_ifs with hl
    · rw [if_pos hl] at hf
      refine ⟨?_, hf⟩
      rw [rest, length_append]
      exact Nat.le_add_left _ _
    · rw [if_neg hl] at hf
      obtain ⟨h₁, h₂⟩ := skipTrailers_spec d'
      exact ⟨h₁, hf.trans h₂⟩
termination_by d.rest.length

end line

/-! ## Reads -/

def ahead (d : ChunkedDecoder σ) : Scan :=
  if d.needNewChunk then scan d.rest else scanChunk d.remainingInChunk d.rest

def body (d : ChunkedDecoder σ) : Bytes := if d.finished then [] else d.ahead.body

/-- The decoder stops, or has stopped, with at most `t` octets to come behind the body. -/
def Ends (d : ChunkedDecoder σ) (t : ℕ) : Prop :=
  if d.finished then left d.source ≤ t else d.ahead.past = t

/-- A move of the decoder: it delivers the next part of the body, and reads no further than where it will stop. -/
structure Moves (d : ChunkedDecoder σ) (out : Bytes) (d' : ChunkedDecoder σ) : Prop where
  body_eq : out ++ d'.body = d.body
  ends : ∀ t, d.Ends t → d'.Ends t
  fetched : ∀ t, d.Ends t → Fetched 4096 t d.source d'.source

variable (d : ChunkedDecoder σ)

theorem Moves.refl : Moves d [] d := ⟨rfl, fun _ h => h, fun _ _ => .refl _⟩

theorem Moves.trans {d₁ d₂ d₃ : ChunkedDecoder σ} {out out' : Bytes} (h : Moves d₁ out d₂)
    (h' : Moves d₂ out' d₃) : Moves d₁ (out ++ out') d₃ where
  body_eq := by rw [append_assoc, h'.body_eq, h.body_eq]
  ends t ht := h'.ends t (h.ends t ht)
  fetched t ht := (h.fetched t ht).trans (h'.fetched t (h.ends t ht))

theorem Moves.of_ahead {d d' : ChunkedDecoder σ} {out body : Bytes} (hf : d.finished = false)
    (hf' : d'.finished = false) (hb : out ++ d'.ahead.body = body) (ha : d.ahead = ⟨body, d'.ahead.past⟩)
    (hs : Fetched 4096 d'.ahead.past d.source d'.source) : Moves d out d' where
  body_eq := by simp [ChunkedDecoder.body, hf, hf', hb, ha]
  ends t ht := by simpa [Ends, hf, hf', ha] using ht
  fetched t ht := by
    have : d'.ahead.past = t := by simpa [Ends, hf, ha] using ht
    rwa [← this]

theorem Moves.of_finished {d d' : ChunkedDecoder σ} (hf : d.finished = false)
    (hf' : d'.finished = true) {t : ℕ} (ha : d.ahead = ⟨[], t⟩) (hl : left d'.source ≤ t)
    (hs : Fetched 4096 t d.source d'.source) : Moves d [] d' where
  body_eq := by simp [ChunkedDecoder.body, hf, hf', ha]
  ends u hu := by
    have : t = u := by simpa [Ends, hf, ha] using hu
    rw [Ends, if_pos hf', ← this]
    exact hl
  fetched u hu := by
    have : t = u := by simpa [Ends, hf, ha] using hu
    rwa [← this]

theorem beginNextChunk_moves {d : ChunkedDecoder σ} (hf : d.finished = false)
    (hn : d.needNewChunk = true) :
    ∃ more d', d.beginNextChunk = (more, d') ∧ Moves d [] d' ∧ d'.finished = !more := by
  have ha : d.ahead = scan d.rest := if_pos hn
  rw [beginNextChunk]
  cases h : lineAt d.rest with
  | none =>
    obtain ⟨d', he, -, hc, hs⟩ := readLine_of_none h
    rw [he]
    refine ⟨_, _, rfl, .of_finished hf rfl (ha.trans (scan_of_none h)) ?_ hs, rfl⟩
    simp [finish, left, hc]
  | some x =>
    obtain ⟨line, k⟩ := x
    obtain ⟨d', he, hp, hr, hs⟩ := readLine_of_some h
    have hpast := scan_past_of_some h
    rw [scan_of_some h, ← hr] at ha
    rw [scan_of_some h] at hpast
    rw [he]
    cases hz : chunkSize line with
    | none =>
      simp only [hz] at ha ⊢
      refine ⟨_, _, rfl, .of_finished hf rfl ha ?_ (hs _ (by rw [hr])), rfl⟩
      simp [finish, left, rest]
    | some size =>
      cases size with
      | zero =>
        simp only [hz] at ha ⊢
        obtain ⟨h₁, h₂⟩ := skipTrailers_spec d'
        refine ⟨_, _, rfl, .of_finished hf rfl ha h₁ ((hs _ ?_).trans h₂), rfl⟩
        rw [hr]
        exact trailersPast_le _
      | succ size =>
        simp only [hz] at ha hpast ⊢
        refine ⟨_, _, rfl, .of_ahead hf (hp.finished.trans hf) rfl ?_ ?_, hp.finished.trans hf⟩
        · rw [ha]
          rfl
        · exact hs _ (by rw [← hr] at hpast ⊢; exact hpast)

theorem enterChunk_moves {d : ChunkedDecoder σ} (hf : d.finished = false) :
    ∃ more d', d.enterChunk = (more, d') ∧ Moves d [] d' ∧ d'.finished = !more := by
  rw [enterChunk]
  split_ifs with hn
  · exact beginNextChunk_moves hf hn
  · exact ⟨true, d, rfl, .refl d, hf⟩

theorem fill_moves {d : ChunkedDecoder σ} (hf : d.finished = false) (hn : d.needNewChunk = false) :
    Moves d [] (d.fillUntil hasOctet) := by
  have hp := samePlace_fillUntil hasOctet d
  have hr := rest_fillUntil hasOctet d
  have ha : (d.fillUntil hasOctet).ahead = d.ahead := by
    rw [ahead, ahead, hr, hp.needNew, hp.remaining]
  refine .of_ahead hf (hp.finished.trans hf) rfl (by rw [ha]; rfl) (fetched_fillUntil ?_)
  intro b c hbc hb
  have hb : b = [] := by simpa [hasOctet] using hb
  subst hb
  obtain rfl | hc := eq_or_ne c []
  · exact .inr rfl
  · left
    have hpast := scan_past_le (d.rest.drop (d.remainingInChunk + 2))
    rw [ha, ahead, if_neg (by simp [hn]), ← hbc]
    rw [← hbc, nil_append, length_drop] at hpast
    have := length_pos_iff.mpr hc
    exact lt_of_le_of_lt hpast (by omega)

theorem endChunk_spec {d : ChunkedDecoder σ} (hn : d.needNewChunk = true) :
    let d₁ := d.fillUntil fun b => decide (2 ≤ b.length)
    let d₂ : ChunkedDecoder σ := if 2 ≤ d₁.buffer.length then { d₁ with buffer := d₁.buffer.drop 2 } else d₁
    d₂.finished = d.finished ∧ d₂.ahead = scan (d.rest.drop 2) ∧
      Fetched 4096 (scan (d.rest.drop 2)).past d.source d₂.source := by
  intro d₁ d₂
  have hp : SamePlace d d₁ := samePlace_fillUntil _ d
  have hr : d₁.rest = d.rest := rest_fillUntil _ d
  have hs : Fetched 4096 (scan (d.rest.drop 2)).past d.source d₁.source := by
    refine fetched_fillUntil fun b c hbc hb => ?_
    obtain rfl | hc := eq_or_ne c []
    · exact .inr rfl
    · left
      have hb : b.length < 2 := by simpa using hb
      have hpast := scan_past_le (d.rest.drop 2)
      rw [← hbc] at hpast ⊢
      rw [length_drop, length_append] at hpast
      have := length_pos_iff.mpr hc
      omega
  simp only [d₂]
  split_ifs with h2
  · refine ⟨hp.finished, ?_, hs⟩
    simp only [ahead, hp.needNew.trans hn, if_true]
    rw [rest, ← drop_append_of_le_length h2, ← rest, hr]
  · refine ⟨hp.finished, ?_, hs⟩
    -- the source has ended within the two octets
    have hc : Source.contents d₁.source = [] := by
      obtain h | h := fillUntil_done (fun b => decide (2 ≤ b.length)) d
      · exact absurd (by simpa using h) h2
      · exact h
    have hlen : d.rest.length < 2 := by
      rw [← hr, rest, hc, append_nil]
      omega
    rw [ahead, if_pos (hp.needNew.trans hn), hr, scan_short hlen, scan_short (by simp; omega)]

theorem copy_moves {d : ChunkedDecoder σ} {k : ℕ} (hf : d.finished = false)
    (hn : d.needNewChunk = false) (hk : k ≤ d.remainingInChunk) (hb : k ≤ d.buffer.length) :
    Moves d (d.copy k).1 (d.copy k).2 ∧ (d.copy k).1.length = k := by
  have ha : d.ahead = scanChunk d.remainingInChunk d.rest := by rw [ahead, if_neg (by simp [hn])]
  have hrest : d.buffer.drop k ++ Source.contents d.source = d.rest.drop k := by
    rw [rest, drop_append_of_le_length hb]
  have htake : d.rest.take k = d.buffer.take k := by rw [rest, take_append_of_le_length hb]
  have hlen : (d.buffer.take k).length = k := by simpa using hb
  rw [copy]
  split_ifs with hz
  · have hk : d.remainingInChunk = k := by omega
    obtain ⟨h₁, h₂, h₃⟩ := endChunk_spec (d := { d with
        buffer := d.buffer.drop k
        remainingInChunk := 0
        needNewChunk := true
        remaining_pos := by simp }) rfl
    rw [rest, hrest, drop_drop] at h₂ h₃
    refine ⟨.of_ahead hf (h₁.trans hf) rfl ?_ (by rw [h₂]; exact h₃), hlen⟩
    rw [h₂, ha, scanChunk, hk, htake]
  · refine ⟨.of_ahead hf hf rfl ?_ (.refl _), hlen⟩
    simp only [ahead, hn, rest, hrest]
    rw [← rest, if_neg Bool.false_ne_true, if_neg Bool.false_ne_true, scanChunk, scanChunk, ← htake,
      drop_drop, ← append_assoc, ← take_add]
    rw [show k + (d.remainingInChunk - k) = d.remainingInChunk by omega,
      show k + (d.remainingInChunk - k + 2) = d.remainingInChunk + 2 by omega]

/-- **One read** of at least one octet is a move; it returns nothing only when the decoder has finished. -/
theorem read_moves {n : ℕ} (h : 0 < n) :
    Moves d (d.read n).1 (d.read n).2 ∧ (d.read n).1.length ≤ n ∧
      ((d.read n).1 = [] → (d.read n).2.finished = true) := by
  rw [read]
  split_ifs with hf
  · exact ⟨.refl d, Nat.zero_le _, fun _ => hf⟩
  have hf : d.finished = false := by simpa using hf
  obtain ⟨more, d', he, hm, hfin⟩ := enterChunk_moves hf
  rw [he]
  cases more with
  | false => exact ⟨hm, Nat.zero_le _, fun _ => hfin⟩
  | true =>
    have hn : d'.needNewChunk = false := (enterChunk_true he).1
    have hm := hm.trans (fill_moves hfin hn)
    have hp := samePlace_fillUntil hasOctet d'
    have hdone := fillUntil_done hasOctet d'
    dsimp only
    generalize d'.fillUntil hasOctet = d₁ at *
    have hf₁ : d₁.finished = false := hp.finished.trans hfin
    have hn₁ : d₁.needNewChunk = false := hp.needNew.trans hn
    split_ifs with hb h0
    · -- the source ended inside the chunk
      have hc : Source.contents d₁.source = [] := by simpa [hb, hasOctet] using hdone
      have ha : d₁.ahead = ⟨[], 0⟩ := by
        rw [ahead, if_neg (by simp [hn₁]), rest, hb, hc, scanChunk]
        simp [scan_short]
      exact ⟨hm.trans (.of_finished hf₁ rfl ha (by simp [finish, left, hc]) (.refl _)),
        Nat.zero_le _, fun _ => rfl⟩
    · have := d₁.remaining_pos hn₁
      have := length_pos_iff.mpr hb
      omega
    · obtain ⟨hc, hl⟩ := copy_moves hf₁ hn₁
        (show min n (min d₁.remainingInChunk d₁.buffer.length) ≤ _ by omega) (by omega)
      refine ⟨hm.trans hc, by rw [hl]; exact Nat.min_le_left _ _, fun h => ?_⟩
      rw [h] at hl
      exact absurd hl.symm h0

theorem length_read_le (n : ℕ) : (d.read n).1.length ≤ n := by
  fun_induction read d n with
  | case1 | case2 | case3 => exact Nat.zero_le _
  | case4 d _ d' _ d₁ _ _ ih => exact ih
  | case5 d _ d' _ d₁ _ _ =>
    rw [copy]
    split_ifs
    all_goals exact (length_take_le _ _).trans (Nat.min_le_left _ _)

theorem body_of_finished {d : ChunkedDecoder σ} (h : d.finished = true) : d.body = [] := if_pos h

theorem finished_read_zero : (d.read 0).2.finished = true := by
  obtain ⟨n, hn⟩ : ∃ n, n = 0 := ⟨0, rfl⟩
  rw [← hn]
  fun_induction read d n with
  | case1 d h => exact h
  | case2 d h d' he =>
    obtain ⟨more, d₁, he', -, hf⟩ := enterChunk_moves (show d.finished = false by simpa using h)
    rw [he] at he'
    cases he'
    exact hf
  | case3 => rfl
  | case4 d _ d' _ d₁ _ _ ih => exact ih
  | case5 d _ d' _ d₁ _ h => exact absurd (by rw [hn]; exact Nat.zero_min _) h

instance : Source (ChunkedDecoder σ) UInt8 where
  read := read
  weight d := d.body.length
  weight_read := length_contents_lt body (fun d _ hn => (read_moves d hn).1.body_eq) length_read_le
  contents := body
  read_append d _ hn := (read_moves d hn).1.body_eq
  contents_read_zero d := by
    rw [body_of_finished (finished_read_zero d)]
    exact nil_suffix
  contents_of_read_nil d n hn h := by
    have hb := (read_moves d hn).1.body_eq
    rw [h, body_of_finished ((read_moves d hn).2.2 h)] at hb
    exact hb.symm
  length_read_le := length_read_le

/-! ## Blocks of the source -/

/-- `d'` has taken some more blocks of 4096 from the source. -/
def Advances (d d' : ChunkedDecoder σ) : Prop := ∃ k, d'.source = after 4096 k d.source

theorem Advances.refl : Advances d d := ⟨0, rfl⟩

theorem Advances.trans {d₁ d₂ d₃ : ChunkedDecoder σ} (h : Advances d₁ d₂) (h' : Advances d₂ d₃) :
    Advances d₁ d₃ := by
  obtain ⟨k, hk⟩ := h
  obtain ⟨l, hl⟩ := h'
  exact ⟨l + k, by rw [hl, hk, after, after, after, ← Function.iterate_add_apply]⟩

theorem advances_fillUntil (p : Bytes → Bool) (d : ChunkedDecoder σ) : Advances d (d.fillUntil p) := by
  fun_induction fillUntil p d with
  | case1 | case2 => exact .refl _
  | case3 d _ h ih => exact Advances.trans ⟨1, fillMore_source (by simpa using h)⟩ ih

theorem advances_readLine : Advances d d.readLine.2 := by
  rw [readLine]
  split
  · exact advances_fillUntil hasLine d
  · exact advances_fillUntil hasLine d

theorem advances_skipTrailers : Advances d d.skipTrailers := by
  fun_induction skipTrailers d with
  | case1 d d' h => have := advances_readLine d; rwa [h] at this
  | case2 d d' h => have := advances_readLine d; rwa [h] at this
  | case3 d line d' h _ ih => have := advances_readLine d; rw [h] at this; exact this.trans ih

theorem advances_enterChunk : Advances d d.enterChunk.2 := by
  rw [enterChunk]
  split_ifs
  · have hl := advances_readLine d
    rw [beginNextChunk]
    split
    · next h => rw [h] at hl; exact hl
    · next h =>
      rw [h] at hl
      split
      · exact hl
      · exact hl.trans (advances_skipTrailers _)
      · exact hl
  · exact .refl d

theorem advances_copy (k : ℕ) : Advances d (d.copy k).2 := by
  rw [copy]
  split_ifs with h
  · dsimp only
    split_ifs
    all_goals exact Advances.trans (.refl _) (advances_fillUntil _ _)
  · exact .refl _

/-- **The source is read in blocks**, whatever the sizes of the reads. -/
theorem advances_read (n : ℕ) : Advances d (d.read n).2 := by
  fun_induction read d n with
  | case1 => exact .refl _
  | case2 d _ d' h => have := advances_enterChunk d; rwa [h] at this
  | case3 d _ d' h d₁ _ =>
    have := advances_enterChunk d
    rw [h] at this
    exact this.trans (advances_fillUntil hasOctet d')
  | case4 d _ d' h d₁ _ _ ih =>
    have := advances_enterChunk d
    rw [h] at this
    exact (this.trans (advances_fillUntil hasOctet d')).trans ih
  | case5 d _ d' h d₁ _ _ =>
    have := advances_enterChunk d
    rw [h] at this
    exact (this.trans (advances_fillUntil hasOctet d')).trans (advances_copy _ _)

end ChunkedDecoder

end Nhttp.Protocol
