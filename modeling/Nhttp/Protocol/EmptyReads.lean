import Nhttp.Protocol.ChunkedScan
import Nhttp.Protocol.Multipart

/-!
# Reads of size zero

Both decoders take a copy length of zero for the end of something, also if the caller asked for nothing.

* `MultipartReader.results`: what a caller gets from reads of a part and from steps to the next one.
* **`empty_read_inserted_iff`**: such a read may be inserted exactly where nothing is left to be read.
-/

namespace Nhttp.Protocol

open Octets Reading Find Loops

/-! ## Chunked bodies -/

namespace ChunkedDecoder

variable {σ : Type} [Source σ UInt8]

variable {d : ChunkedDecoder σ}

theorem body_read (h : d.body = []) (n : ℕ) : (d.read n).1 = [] ∧ (d.read n).2.body = [] := by
  obtain rfl | hn := Nat.eq_zero_or_pos n
  · exact ⟨List.length_eq_zero_iff.mp (Nat.le_zero.mp (length_read_le d 0)), body_of_finished (finished_read_zero d)⟩
  · have happ := Source.read_append d n hn
    rw [show Source.contents d = [] from h] at happ
    exact List.append_eq_nil_iff.mp happ

theorem reads_of_body_nil (h : d.body = []) (ns : List ℕ) :
    (reads d ns).1 = ns.map fun _ => [] := by
  induction ns generalizing d with
  | nil => rfl
  | cons n ns ih =>
    obtain ⟨hout, hbody⟩ := body_read h n
    exact congrArg₂ _ hout (ih hbody)

theorem empty_read_iff (d : ChunkedDecoder σ) :
    (∀ ns, (reads d (0 :: ns)).1 = [] :: (reads d ns).1) ↔ d.body = [] := by
  constructor
  · intro h
    have hend := reads_of_body_nil (body_of_finished (finished_read_zero d)) [1]
    have hone : [(Readable.read d 1).1] = [[]] := (List.cons.inj (h [1])).2.symm.trans hend
    exact Source.contents_of_read_nil d 1 Nat.one_pos (List.cons.inj hone).1
  · intro h ns
    rw [reads_of_body_nil h, reads_of_body_nil h]
    rfl

end ChunkedDecoder

/-! ## Parts -/

namespace MultipartReader

variable {ω β : Type} [Source ω UInt8]

/-- What a caller does with the current part, or with the reader. -/
inductive PartCall where
  | read (n : ℕ)
  | next
deriving DecidableEq, Repr

inductive PartResult where
  | octets (bs : Bytes)
  | part (headers : Option HttpHeaders)
deriving DecidableEq

def call (r : MultipartReader ω) : PartCall → PartResult × MultipartReader ω
  | .read n => (.octets (r.readPartBody n).1, (r.readPartBody n).2)
  | .next => (.part r.nextPart.1, r.nextPart.2)

def results (r : MultipartReader ω) : List PartCall → List PartResult
  | [] => []
  | c :: cs => (r.call c).1 :: (r.call c).2.results cs

/-- Two loops are the same if they do the same with every reader that has the same to come. -/
theorem awaitMore_congr {look look' : MultipartReader ω → Option (β × MultipartReader ω)}
    {atEof atEof' : MultipartReader ω → β × MultipartReader ω} (r : MultipartReader ω)
    (hlook : ∀ r', r'.contents = r.contents → Kept r r' → look r' = look' r')
    (heof : ∀ r', r'.contents = r.contents → Kept r r' → look r' = none → r'.eof = true → atEof r' = atEof' r') :
    awaitMore look atEof r = awaitMore look' atEof' r := by
  have hsame : ∀ t, t.contents = r.contents → Kept r t →
      (awaitLoop look' atEof').step t = (awaitLoop look atEof).step t := by
    intro t hc hk
    unfold awaitLoop
    dsimp only
    rw [← hlook t hc hk]
    cases hl : look t with
    | some out => rfl
    | none =>
      dsimp only
      split_ifs with he
      · rw [heof t hc hk hl he]
      · rfl
  have key : ∀ r', r'.contents = r.contents → Kept r r' →
      awaitMore look atEof r' = awaitMore look' atEof' r' := by
    intro r'
    unfold awaitMore
    induction r' using (awaitLoop look atEof).induct with
    | hinl t t' hstep ih =>
      intro hc hk
      rw [Loop.run_of_inl hstep, Loop.run_of_inl ((hsame t hc hk).trans hstep)]
      obtain ⟨-, -, rfl⟩ := awaitLoop_inl hstep
      obtain ⟨hc', hk'⟩ := t.fillMore_spec
      exact ih (hc'.trans hc) (hk.trans hk')
    | hinr t out hstep =>
      intro hc hk
      rw [Loop.run_of_inr hstep, Loop.run_of_inr ((hsame t hc hk).trans hstep)]
  exact key r rfl (.refl r)

/-- The marker comes next, or nothing at all. -/
def AtPartEnd (r : MultipartReader ω) : Prop := r.contents = [] ∨ r.boundaryMarker <+: r.contents

omit [Source ω UInt8] in
theorem handOut_zero (r : MultipartReader ω) : r.handOut 0 = none := rfl

omit [Source ω UInt8] in
theorem handOut_pos (r : MultipartReader ω) {k : ℕ} (hk : 0 < k) (hb : r.buffer ≠ []) :
    ∃ out, r.handOut k = some out ∧ out.1 ≠ [] := by
  refine ⟨_, if_pos hk, ?_⟩
  rw [ne_eq, List.take_eq_nil_iff, not_or]
  exact ⟨hk.ne', hb⟩

variable {r : MultipartReader ω}

theorem readPartBody_zero (ha : r.partActive = true) :
    (r.readPartBody 0).1 = [] ∧ (r.readPartBody 0).2.partActive = false ∧
      (r.readPartBody 0).2.finished = r.finished := by
  unfold readPartBody
  rw [if_pos ha]
  refine awaitMore_rule (Q := fun out => out.1 = [] ∧ out.2.partActive = false ∧ out.2.finished = r.finished) r
    (fun r' out _ hk hl => ?_) (fun r' _ hk _ _ => ?_)
  · unfold bodyLook at hl
    cases hf : find r'.boundaryMarker r'.buffer with
    | some pos =>
      rw [hf, Nat.zero_min, handOut_zero] at hl
      cases hl
      exact ⟨rfl, rfl, hk.finished⟩
    | none =>
      rw [hf, Nat.zero_min, handOut_zero, ite_self] at hl
      cases hl
  · rw [bodyEof, Nat.zero_min, handOut_zero]
    exact ⟨rfl, rfl, hk.finished⟩

theorem readPartBody_ne_nil (ha : r.partActive = true) (h : ¬r.AtPartEnd) {n : ℕ}
    (hn : 0 < n) : (r.readPartBody n).1 ≠ [] := by
  obtain ⟨hne, hpre⟩ := not_or.mp h
  unfold readPartBody
  rw [if_pos ha]
  refine awaitMore_rule (Q := fun out => out.1 ≠ []) r (fun r' out hc hk hl => ?_) (fun r' hc hk hl he => ?_)
  · unfold bodyLook at hl
    cases hf : find r'.boundaryMarker r'.buffer with
    | some pos =>
      obtain ⟨hle, hmark, -⟩ := find_eq_some_iff.mp hf
      have hpos : 0 < pos := by
        refine Nat.pos_of_ne_zero fun h0 => hpre ?_
        rw [h0, List.drop_zero, hk.marker] at hmark
        rw [← hc]
        exact hmark.trans r'.buffer_prefix
      have hb : r'.buffer ≠ [] := List.ne_nil_of_length_pos (hpos.trans_le hle)
      obtain ⟨out', ho, hne'⟩ := r'.handOut_pos (show 0 < min n pos by omega) hb
      rw [hf] at hl
      dsimp only at hl
      rw [ho] at hl
      cases hl
      exact hne'
    | none =>
      rw [hf] at hl
      split_ifs at hl with hlen
      have hb : r'.buffer ≠ [] := List.ne_nil_of_length_pos (by omega)
      obtain ⟨out', ho, hne'⟩ := r'.handOut_pos
        (show 0 < min n (r'.buffer.length - (r'.boundaryMarker.length - 1)) by omega) hb
      rw [ho] at hl
      cases hl
      exact hne'
  · have hb : r'.buffer ≠ [] := by
      rw [← contents_of_eof he, hc]
      exact hne
    have hpos : 0 < min n r'.buffer.length := Nat.lt_min.mpr ⟨hn, List.length_pos_iff.mpr hb⟩
    obtain ⟨out', ho, hne'⟩ := r'.handOut_pos hpos hb
    rw [bodyEof, ho]
    exact hne'

theorem readPartBody_of_atPartEnd (h : r.AtPartEnd) (n : ℕ) :
    r.readPartBody n = r.readPartBody 0 := by
  unfold readPartBody
  split_ifs
  · -- the position of the marker, and the length of the buffer at the end, are zero
    have hfind : ∀ r' : MultipartReader ω, r'.contents = r.contents → Kept r r' →
        find r'.boundaryMarker r'.buffer = some 0 ∨
          find r'.boundaryMarker r'.buffer = none ∧ r'.buffer.length ≤ r'.boundaryMarker.length ∧
            (r'.eof = true → r'.buffer = []) := by
      intro r' hc hk
      by_cases hlen : r'.boundaryMarker <+: r'.buffer
      · exact .inl (find_eq_some_iff.mpr ⟨Nat.zero_le _, hlen, fun j hj => absurd hj (Nat.not_lt_zero j)⟩)
      · have hshort : r'.buffer = [] ∨
            r'.buffer.length < r'.boundaryMarker.length ∧ r'.boundaryMarker <+: r'.contents := by
          obtain hnil | hpre := h
          · rw [← hc] at hnil
            exact .inl (List.append_eq_nil_iff.mp hnil).1
          · rw [← hc, ← hk.marker] at hpre
            refine .inr ⟨Nat.lt_of_not_le fun hle => hlen ?_, hpre⟩
            exact List.prefix_of_prefix_length_le hpre r'.buffer_prefix hle
        refine .inr ⟨find_eq_none_iff.mpr fun i hi hp => hlen ?_, ?_, fun he => ?_⟩
        · have hle := hp.length_le
          rw [List.length_drop] at hle
          obtain hnil | ⟨hlt, -⟩ := hshort
          · rw [hnil, List.drop_nil] at hp
            rwa [hnil]
          · omega
        · obtain hnil | ⟨hlt, -⟩ := hshort
          · rw [hnil]
            exact Nat.zero_le _
          · exact hlt.le
        · obtain hnil | ⟨hlt, hpre⟩ := hshort
          · exact hnil
          · have hle := hpre.length_le
            rw [contents_of_eof he] at hle
            omega
    refine awaitMore_congr r (fun r' hc hk => ?_) (fun r' hc hk hl he => ?_)
    · obtain hzero | ⟨hnone, hlen, -⟩ := hfind r' hc hk
      · rw [bodyLook, bodyLook, hzero]
        dsimp only
        rw [Nat.min_zero, Nat.min_zero]
      · rw [bodyLook, bodyLook, hnone]
        rw [if_neg (Nat.not_lt_of_le hlen), if_neg (Nat.not_lt_of_le hlen)]
    · obtain hzero | ⟨-, -, hnil⟩ := hfind r' hc hk
      · rw [bodyLook, hzero] at hl
        cases hl
      · rw [bodyEof, bodyEof, hnil he, List.length_nil, Nat.min_zero, Nat.min_zero]
  · rfl

theorem readPartBody_of_inactive (ha : r.partActive = false) (n : ℕ) :
    r.readPartBody n = ([], r) := by
  unfold readPartBody
  rw [ha]
  exact if_neg Bool.false_ne_true

theorem results_of_atPartEnd (ha : r.partActive = true) (h : r.AtPartEnd)
    (cs : List PartCall) : (r.readPartBody 0).2.results cs = r.results cs := by
  obtain ⟨hout, hina, hfin⟩ := readPartBody_zero ha
  have hpair : r.readPartBody 0 = ([], (r.readPartBody 0).2) := Prod.ext hout rfl
  induction cs with
  | nil => rfl
  | cons c cs ih =>
    cases c with
    | read n =>
      rw [results, results, call, call, readPartBody_of_inactive hina, readPartBody_of_atPartEnd h n, hout]
    | next =>
      rw [results, results, call, call]
      by_cases hf : r.finished = true
      · have hdone : r.nextPart = (none, r) := if_pos hf
        have hdone' : (r.readPartBody 0).2.nextPart = (none, (r.readPartBody 0).2) := if_pos (hfin.trans hf)
        rw [hdone, hdone', ih]
      · have hdrop : r.discardBody = (r.readPartBody 0).2 := by
          refine Loop.run_of_inr ((if_pos ha).trans ?_)
          rw [readPartBody_of_atPartEnd h, hpair]
        have hnext : (r.readPartBody 0).2.nextPart = r.nextPart := by
          unfold nextPart
          rw [hfin, discardBody_of_inactive hina, hdrop]
          rw [if_neg hf, if_neg hf]
        rw [hnext]

theorem empty_part_read_iff (r : MultipartReader ω) :
    (∀ cs, r.results (.read 0 :: cs) = .octets [] :: r.results cs) ↔ (r.partActive = true → r.AtPartEnd) := by
  constructor
  · intro h ha
    by_contra hend
    obtain ⟨-, hina, -⟩ := readPartBody_zero ha
    have hone := (List.cons.inj (h [.read 1])).2
    rw [call, results, results, results, call, call, readPartBody_of_inactive hina] at hone
    injection hone with hone
    injection hone with hone
    exact readPartBody_ne_nil ha hend Nat.one_pos hone.symm
  · intro h cs
    rw [results, call]
    cases ha : r.partActive with
    | true =>
      rw [(readPartBody_zero ha).1, results_of_atPartEnd ha (h ha)]
    | false => rw [readPartBody_of_inactive ha]

end MultipartReader

open MultipartReader in
/-- **A read of size zero inserted anywhere** leaves all later results as they are exactly if, at that point, the body
has been delivered and the current part has been read up to its end. -/
theorem empty_read_inserted_iff {σ ω : Type} [Source σ UInt8] [Source ω UInt8] (d : ChunkedDecoder σ)
    (r : MultipartReader ω) :
    ((∀ ns, (reads d (0 :: ns)).1 = [] :: (reads d ns).1) ↔ d.body = []) ∧
      ((∀ cs, r.results (.read 0 :: cs) = .octets [] :: r.results cs) ↔
        (r.partActive = true → r.contents = [] ∨ r.boundaryMarker <+: r.contents)) :=
  ⟨d.empty_read_iff, r.empty_part_read_iff⟩

def helloChunks : ChunkedDecoder (Segments UInt8) where
  source := Segments.singles (ascii "5\r\nhello\r\n0\r\n\r\n")

def helloPart : MultipartReader (Segments UInt8) where
  source := Segments.singles []
  boundaryMarker := ascii "\r\n--B"
  buffer := ascii "hello\r\n--B--"
  partActive := true

/-- An empty read drops the rest of a chunk and of a part. -/
theorem empty_read_drops :
    (reads helloChunks [1]).1 = [ascii "h"] ∧ (reads helloChunks [0, 1]).1 = [[], []] ∧
      helloPart.results [.read 1] = [.octets (ascii "h")] ∧
      helloPart.results [.read 0, .read 1] = [.octets [], .octets []] := by
  decide +kernel

end Nhttp.Protocol
