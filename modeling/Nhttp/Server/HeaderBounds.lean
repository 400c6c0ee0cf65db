import Nhttp.Lib.Loops
import Nhttp.Server.Segmentation

/-!
# How much a header block takes

`read_headers` looks at its limit only before it reads from the wire, and compares it with the buffer alone.

* `headersLoop`: the loop of `read_headers`, with the number of octets it has taken.
* **`header_block_bounded`**: then a block, and the memory for it, has at most one read more than the limit.
-/

namespace Nhttp.Server

open Octets Reading Protocol Loops List BufferedWire HttpHeader

variable {ω : Type} [Source ω UInt8]

/-! ## The loop -/

/-- `read_headers` between two looks at the buffer. -/
structure HeaderState (ω : Type) where
  wire : BufferedWire ω
  out : HttpHeaders := []
  /-- The octets of the block that are no longer in the buffer. -/
  taken : ℕ := 0

/-- Another block from the wire, another field, or the result. -/
def headersStep (maxHeaderSize : ℕ) (s : HeaderState ω) : HeaderState ω ⊕ Option (HttpHeaders × BufferedWire ω) :=
  match lineAt s.wire.leftover with
  | none =>
    if maxHeaderSize < s.wire.leftover.length then .inr none
    else match s.wire.fillMore with
      | none => .inr none
      | some b => .inl { s with wire := b }
  | some (line, consumed) =>
    if line = [] then .inr (some (s.out, { s.wire with leftover := s.wire.leftover.drop consumed }))
    else match HttpHeader.tryParse s.wire.leftover with
      | .done consumed h =>
        .inl ⟨{ s.wire with leftover := s.wire.leftover.drop consumed }, s.out.add h.name h.value, s.taken + consumed⟩
      | _ => .inr none

variable {m k : ℕ} {s s' : HeaderState ω} {b b' : BufferedWire ω} {input : Bytes}

theorem headersStep_inl (h : headersStep m s = .inl s') :
    (LF ∉ s.wire.leftover ∧ s.wire.leftover.length ≤ m ∧ s.wire.fillMore = some s'.wire ∧ s'.out = s.out ∧
        s'.taken = s.taken) ∨
      ∃ k x, tryParse s.wire.leftover = .done k x ∧
        s' = ⟨{ s.wire with leftover := s.wire.leftover.drop k }, s.out.add x.name x.value, s.taken + k⟩ := by
  unfold headersStep at h
  cases hl : lineAt s.wire.leftover with
  | none =>
    rw [hl] at h
    split_ifs at h with hm
    cases hf : s.wire.fillMore with
    | none =>
      rw [hf] at h
      cases h
    | some b =>
      rw [hf] at h
      cases h
      exact .inl ⟨lineAt_eq_none.mp hl, Nat.le_of_not_lt hm, rfl, rfl, rfl⟩
  | some l =>
    rw [hl] at h
    dsimp only at h
    split_ifs at h
    cases hp : tryParse s.wire.leftover with
    | done k x =>
      rw [hp] at h
      cases h
      exact .inr ⟨k, x, rfl, rfl⟩
    | more | malformed =>
      rw [hp] at h
      cases h

/-- Octets that have not arrived count twice. -/
def HeaderState.measure (s : HeaderState ω) : ℕ := s.wire.leftover.length + 2 * left s.wire.wire

theorem measure_headersStep (h : headersStep m s = .inl s') :
    s'.measure < s.measure := by
  unfold HeaderState.measure
  obtain ⟨-, -, hf, -, -⟩ | ⟨k, x, hp, rfl⟩ := headersStep_inl h
  · obtain ⟨h1, h2⟩ := fillMore_some hf
    have := congrArg List.length h1
    simp only [contents, length_append] at this
    simp only [left] at h2 ⊢
    omega
  · have := tryParse_done hp
    simp only [length_drop]
    omega

/-- The loop of `read_headers`. -/
def headersLoop (maxHeaderSize : ℕ) : Loop (HeaderState ω) (Option (HttpHeaders × BufferedWire ω)) where
  step := headersStep maxHeaderSize
  measure := HeaderState.measure
  decreasing := measure_headersStep

theorem readHeaders_step (m : ℕ) (s : HeaderState ω) :
    readHeaders s.wire s.out m =
      match headersStep m s with
      | .inl s' => readHeaders s'.wire s'.out m
      | .inr r => r := by
  rw [readHeaders]
  unfold headersStep
  cases hl : lineAt s.wire.leftover with
  | none =>
    dsimp only
    by_cases hm : m < s.wire.leftover.length
    · rw [if_pos hm, if_pos hm]
    · rw [if_neg hm, if_neg hm]
      split
      · next hf => rw [hf]
      · next hf => rw [hf]
  | some l =>
    dsimp only
    by_cases hnil : l.1 = []
    · rw [if_pos hnil, if_pos hnil]
    · rw [if_neg hnil, if_neg hnil]
      cases hp : tryParse s.wire.leftover with
      | done k x => rfl
      | more => rfl
      | malformed => rfl

theorem readHeaders_eq_run (m : ℕ) (s : HeaderState ω) : readHeaders s.wire s.out m = (headersLoop m).run s := by
  refine Loop.eq_run (f := fun s : HeaderState ω => readHeaders s.wire s.out m) (fun s s' h => ?_)
    (fun s r h => ?_) s
  · exact (readHeaders_step m s).trans (by rw [show headersStep m s = _ from h])
  · exact (readHeaders_step m s).trans (by rw [show headersStep m s = _ from h])

/-! ## Memory -/

/-- The octets of the names and values. -/
def stored (hs : HttpHeaders) : ℕ := (hs.map fun h => h.name.length + h.value.length).sum

theorem stored_add (hs : HttpHeaders) (name value : Bytes) :
    stored (hs.add name value) = stored hs + (name.length + value.length) := by
  simp [stored, HttpHeaders.add]

theorem stored_le_of_tryParse {bs : Bytes} {x : HttpHeader} (h : tryParse bs = .done k x) :
    x.name.length + x.value.length ≤ k := by
  unfold tryParse at h
  cases hl : lineAt bs with
  | none =>
    rw [hl] at h
    cases h
  | some l =>
    obtain ⟨line, consumed⟩ := l
    rw [hl] at h
    dsimp only at h
    cases hc : cutAt 0x3a line with
    | none =>
      rw [hc] at h
      cases h
    | some nv =>
      rw [hc] at h
      dsimp only at h
      split_ifs at h
      cases h
      obtain ⟨raw, rest, -, -, hline, hk⟩ := lineAt_eq_some hl
      obtain ⟨hcut, -⟩ := cutAt_eq_some.mp hc
      have hlen := congrArg List.length hcut
      have hstrip := ( stripCr_prefix raw).length_le
      have htrim := (trim_sublist nv.2).length_le
      rw [length_append, length_cons, hline] at hlen
      dsimp only
      omega

theorem BufferedWire.length_fillMore_le (h : b.fillMore = some b') :
    b'.leftover.length ≤ b.leftover.length + 4096 := by
  have hlen := Source.length_read_le b.wire 4096
  unfold fillMore at h
  rcases hr : Readable.read b.wire 4096 with ⟨_ | ⟨c, got⟩, wire⟩
  · rw [hr] at h
    cases h
  · rw [hr] at h hlen
    cases h
    rw [length_append]
    exact Nat.add_le_add_left hlen _

/-- A state that reads from the wire has not passed the limit with all of the block. -/
def ReadsEarly (m : ℕ) (s : HeaderState ω) : Prop :=
  LF ∉ s.wire.leftover → s.wire.leftover.length ≤ m → s.taken + s.wire.leftover.length ≤ m

structure Within (m : ℕ) (input : Bytes) (s : HeaderState ω) : Prop where
  split : ∃ block, input = block ++ s.wire.contents ∧ block.length = s.taken
  stored_le : stored s.out ≤ s.taken
  le : s.taken + s.wire.leftover.length ≤ m + 4096

theorem split_drop {n : ℕ}
    (h : ∃ block, input = block ++ b.contents ∧ block.length = n) (hk : k ≤ b.leftover.length) :
    ∃ block, input = block ++ ({ b with leftover := b.leftover.drop k } : BufferedWire ω).contents ∧
      block.length = n + k := by
  obtain ⟨block, rfl, rfl⟩ := h
  refine ⟨block ++ b.leftover.take k, ?_, ?_⟩
  · rw [contents, contents, append_assoc, ← append_assoc (b.leftover.take k),
      take_append_drop]
  · rw [length_append, length_take, Nat.min_eq_left hk]

/-- **One round.** -/
theorem within_step (h : Within m input s) (hearly : ReadsEarly m s)
    (hstep : headersStep m s = .inl s') : Within m input s' := by
  obtain ⟨hlf, hm, hf, hout, htaken⟩ | ⟨k, x, hp, rfl⟩ := headersStep_inl hstep
  · have hlen := length_fillMore_le hf
    have := hearly hlf hm
    refine ⟨?_, ?_, by omega⟩
    · rw [(fillMore_some hf).1, htaken]
      exact h.split
    · rw [hout, htaken]
      exact h.stored_le
  · obtain ⟨-, hk⟩ := tryParse_done hp
    have hle := h.le
    have hstored := h.stored_le
    have hfield := stored_le_of_tryParse hp
    refine ⟨split_drop h.split hk, ?_, ?_⟩
    · dsimp only
      rw [stored_add]
      omega
    · dsimp only
      rw [length_drop]
      omega

theorem headersStep_some {hs : HttpHeaders} (h : headersStep m s = .inr (some (hs, b'))) :
    ∃ k ≤ s.wire.leftover.length, b' = { s.wire with leftover := s.wire.leftover.drop k } := by
  unfold headersStep at h
  cases hl : lineAt s.wire.leftover with
  | none =>
    rw [hl] at h
    split_ifs at h
    · cases h
    · cases hf : s.wire.fillMore with
      | none =>
        rw [hf] at h
        cases h
      | some b =>
        rw [hf] at h
        cases h
  | some l =>
    rw [hl] at h
    dsimp only at h
    split_ifs at h
    · cases h
      exact ⟨l.2, (lineAt_length hl).2, rfl⟩
    · cases hp : tryParse s.wire.leftover with
      | done k x =>
        rw [hp] at h
        cases h
      | more | malformed =>
        rw [hp] at h
        cases h

/-- **A header block and the memory for it are bounded** if every read from the wire is made before the block has
passed the limit. -/
theorem header_block_bounded {m : ℕ} {b : BufferedWire ω} (hb : b.leftover.length ≤ m + 4096)
    (hearly : ∀ s ∈ (headersLoop m).visited ⟨b, [], 0⟩, LF ∉ s.wire.leftover → s.wire.leftover.length ≤ m →
      s.taken + s.wire.leftover.length ≤ m) :
    (∀ s ∈ (headersLoop m).visited ⟨b, [], 0⟩, s.wire.leftover.length + stored s.out ≤ m + 4096) ∧
      ∀ hs b', readHeaders b [] m = some (hs, b') →
        ∃ block, b.contents = block ++ b'.contents ∧ block.length ≤ m + 4096 := by
  have hstart : Within m b.contents ⟨b, [], 0⟩ := by
    refine ⟨⟨[], rfl, rfl⟩, Nat.le_refl 0, ?_⟩
    dsimp only
    omega
  have hwithin : ∀ s ∈ (headersLoop m).visited ⟨b, [], 0⟩, Within m b.contents s :=
    Loop.visited_inv (fun s s' h hc hs => within_step h hc hs) hstart hearly
  refine ⟨fun s hs => ?_, fun hs b' hread => ?_⟩
  · have hle := (hwithin s hs).le
    have hstored := (hwithin s hs).stored_le
    omega
  · obtain ⟨s, hmem, hlast⟩ := (headersLoop m).exists_last ⟨b, [], 0⟩
    rw [← readHeaders_eq_run, hread] at hlast
    obtain ⟨k, hk, rfl⟩ := headersStep_some hlast
    obtain ⟨block, hsplit, hlen⟩ := split_drop (hwithin s hmem).split hk
    have hle := (hwithin s hmem).le
    exact ⟨block, hsplit, by omega⟩

def twoFieldsWire : BufferedWire (Segments UInt8) := ⟨[], Segments.singles (ascii "a: b\r\nc: d\r\n\r\n")⟩

theorem header_block_bounded_two :
    (readHeaders twoFieldsWire [] 16).isSome = true ∧
      ∀ s ∈ (headersLoop 16).visited ⟨twoFieldsWire, [], 0⟩, s.wire.leftover.length + stored s.out ≤ 16 + 4096 :=
  ⟨by decide +kernel, (header_block_bounded (by decide) (by decide +kernel)).1⟩

/-! ## Blocks without a bound -/

/-- A field of eleven octets, `k` times. -/
def repeatedField (k : ℕ) : HttpHeaders := List.replicate k ⟨ascii "a", ascii "0123456789"⟩

theorem stored_repeatedField (k : ℕ) : stored (repeatedField k) = k * 11 := by
  rw [stored, repeatedField, map_replicate, sum_replicate]
  rfl

theorem length_writeTo_repeatedField (k : ℕ) : (repeatedField k).writeTo.length = k * 15 := by
  rw [HttpHeaders.writeTo, repeatedField, length_flatMap, map_replicate, sum_replicate]
  rfl

theorem exists_readHeaders_repeatedField (k : ℕ) (hm : 14 ≤ m) :
    ∃ b' : BufferedWire (Segments UInt8),
      readHeaders ⟨[], Segments.singles ((repeatedField k).writeTo ++ [CR, LF])⟩ [] m = some (repeatedField k, b') ∧
        b'.contents = [] := by
  have hfield : ∀ x ∈ repeatedField k, x = ⟨ascii "a", ascii "0123456789"⟩ := fun x hx => eq_of_mem_replicate hx
  have hplain : ∀ x ∈ repeatedField k, x.Plain := by
    intro x hx
    rw [hfield x hx]
    decide
  have hline : ∀ x ∈ repeatedField k, x.line.length + 1 ≤ m := by
    intro x hx
    rw [hfield x hx]
    exact hm
  obtain ⟨b', hread, hrest⟩ := exists_readHeaders_trimmed (fun x hx => ⟨(hplain x hx).1, (hplain x hx).2.lf⟩) hline
    (by omega) [] [] ⟨[], Segments.singles ((repeatedField k).writeTo ++ [CR, LF])⟩ (Segments.contents_singles _)
  rw [map_trimmed hplain] at hread
  exact ⟨b', hread, hrest⟩

/-- The default limit is 16384 octets: four thousand short lines pass, and all of them are stored. -/
theorem header_block_unbounded :
    ∃ b' : BufferedWire (Segments UInt8),
      readHeaders ⟨[], Segments.singles ((repeatedField 4000).writeTo ++ [CR, LF])⟩ [] 16384 =
          some (repeatedField 4000, b') ∧ b'.contents = [] ∧
        16384 + 4096 < stored (repeatedField 4000) ∧
        16384 + 4096 < ((repeatedField 4000).writeTo ++ [CR, LF]).length := by
  obtain ⟨b', hread, hrest⟩ := exists_readHeaders_repeatedField 4000 (show 14 ≤ 16384 by decide)
  refine ⟨b', hread, hrest, ?_, ?_⟩
  · rw [stored_repeatedField]
    decide
  · rw [length_append, length_writeTo_repeatedField]
    decide

end Nhttp.Server
