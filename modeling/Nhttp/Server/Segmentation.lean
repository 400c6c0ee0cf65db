import Nhttp.Server.Connection
import Nhttp.Server.HeaderBlock

/-!
# Heads that arrive in pieces

While a line of the head is incomplete, the size of the buffer is compared with a limit. What is in the
buffer depends on how the octets arrive.

* **`headers_read_back`**: a header block with lines within the limit is read back however it arrives.
* `Block`, `Head`: header blocks and heads at the start of some octets, with the lengths of their lines.
* `headOf_singles`, `exists_headOf`: octet by octet a longer line is refused; with a cut at the limit it may
  be accepted.
* **`head_agrees_iff`**: when the outcome does not depend on the cuts.
-/

namespace Nhttp.Server

open Octets Reading Protocol Source HttpResource Segments
open Option hiding map_id'
open List hiding le_trans not_lt

/-! ## Header blocks -/

section Written

variable {ω : Type} [Source ω UInt8]

variable {hs : HttpHeaders}

/-- Fields on one line each are read back without the blanks around their values. -/
theorem exists_readHeaders_trimmed {m : ℕ}
    (hp : ∀ x ∈ hs, x.OneLine) (hm : ∀ x ∈ hs, x.line.length + 1 ≤ m) (h1 : 1 ≤ m)
    (rest : Bytes) (out : HttpHeaders) (b : BufferedWire ω)
    (hb : contents b = hs.writeTo ++ CR :: LF :: rest) :
    ∃ b', readHeaders b out m = some (out ++ hs.map HttpHeader.trimmed, b') ∧ contents b' = rest := by
  have hns : ∀ n ∈ hs.map (fun x => x.line.length + 1) ++ [1], n ≤ m :=
    forall_mem_append.mpr ⟨forall_mem_map.mpr hm, forall_mem_singleton.mpr h1⟩
  exact exists_readHeaders_of_block (block_writeTo hp rest) hns out b hb

/-- **Header blocks are read back**, whatever follows and however the octets are split between the buffer
and the reads of the wire. -/
theorem headers_read_back {hs : HttpHeaders} {m : ℕ}
    (hname : ∀ x ∈ hs, x.name ≠ [] ∧ 0x3a ∉ x.name ∧ LF ∉ x.name)
    (hvalue : ∀ x ∈ hs, LF ∉ x.value ∧ (∀ c ∈ x.value.head?, isBlank c = false) ∧
      ∀ c ∈ x.value.getLast?, isBlank c = false)
    (hline : ∀ x ∈ hs, (x.line ++ [CR, LF]).length ≤ m) (hend : [CR, LF].length ≤ m) (rest : Bytes)
    (b : BufferedWire ω) (hb : Source.contents b = hs.writeTo ++ CR :: LF :: rest) :
    ∃ b', readHeaders b [] m = some (hs, b') ∧ Source.contents b' = rest := by
  have hp : ∀ x ∈ hs, x.Plain := by
    intro x hx
    obtain ⟨hne, hcolon, hlf⟩ := hname x hx
    obtain ⟨hvlf, hfirst, hlast⟩ := hvalue x hx
    exact ⟨⟨hne, hcolon, hlf⟩, hvlf, trim_eq_self hfirst hlast⟩
  have hm : ∀ x ∈ hs, x.line.length + 1 ≤ m := by
    intro x hx
    have := hline x hx
    simp only [length_append, length_cons, length_nil] at this
    omega
  have h1 : 1 ≤ m := le_trans (by decide) hend
  obtain ⟨b', hb', hc⟩ := exists_readHeaders_trimmed (fun x hx => ⟨(hp x hx).1, (hp x hx).2.lf⟩) hm h1 rest [] b hb
  refine ⟨b', ?_, hc⟩
  rw [hb', map_trimmed hp, nil_append]

end Written

/-- Two fields, cut between a CR and its LF and in a name. -/
theorem headers_read_back_two :
    ∃ b', readHeaders ⟨ascii "A: b\r", (⟨[ascii "\nCo", ascii "de: x\r\n\r\nrest"], by decide⟩ : Segments UInt8)⟩
      [] 9 = some ([⟨ascii "A", ascii "b"⟩, ⟨ascii "Code", ascii "x"⟩], b') ∧
        Source.contents b' = ascii "rest" :=
  headers_read_back (by decide +kernel) (by decide +kernel) (by decide +kernel) (by decide) (ascii "rest") _
    (by decide +kernel)

/-! ## Lines -/

/-- What a request line is; `none` if it is malformed. -/
def requestLine (raw : Bytes) : Option HttpResource := do
  let (method, line) ← cutAt 0x20 (stripCr raw)
  let (target, version) ← cutAt 0x20 line
  let (major, minor) ← HttpResource.parseVersion version
  some (HttpResource.setTarget { method := ⟨method⟩, httpMajor := major, httpMinor := minor } target)

section Lines

variable {ω : Type} [Source ω UInt8]

variable {raw l rest : Bytes} {m : ℕ} {b b' : BufferedWire ω}

theorem tryParse_raw (h : LF ∉ raw) (rest : Bytes) :
    tryParse (raw ++ LF :: rest) =
      match requestLine raw with
      | none => .malformed
      | some r => .done (raw.length + 1) r := by
  rw [tryParse, lineAt_raw h, requestLine]
  dsimp only
  cases cutAt 0x20 (stripCr raw) with
  | none => rfl
  | some x =>
    obtain ⟨method, line⟩ := x
    dsimp only [bind_eq_bind, bind_some]
    cases cutAt 0x20 line with
    | none => rfl
    | some y =>
      obtain ⟨target, version⟩ := y
      dsimp only [bind_some]
      cases parseVersion version <;> rfl

theorem readRequestLine_raw (h : LF ∉ raw) (rest : Bytes) (w : ω) (m : ℕ) :
    readRequestLine ⟨raw ++ LF :: rest, w⟩ m = (requestLine raw).map fun r => (r, ⟨rest, w⟩) := by
  have hparse := tryParse_raw h rest
  rw [readRequestLine]
  cases hr : requestLine raw with
  | none =>
    rw [hr] at hparse
    rw [hparse]
    rfl
  | some r =>
    rw [hr] at hparse
    rw [hparse]
    dsimp only
    rw [drop_line]
    rfl

theorem readRequestLine_fill (b b' : BufferedWire ω) (hlf : LF ∉ b.leftover)
    (hlen : b.leftover.length ≤ m) (hfill : b.fillMore = some b') :
    readRequestLine b m = readRequestLine b' m := by
  have hmore : tryParse b.leftover = .more := by
    rw [tryParse, lineAt_eq_none.mpr hlf]
  conv_lhs => rw [readRequestLine, hmore]
  dsimp only
  rw [if_neg (by omega)]
  split
  · next h => rw [hfill] at h; cases h
  · next h => rw [hfill] at h; cases h; rfl

/-! ## Accepted heads -/

theorem exists_raw_of_mem (h : LF ∈ l) : ∃ raw rest, l = raw ++ LF :: rest ∧ LF ∉ raw := by
  obtain ⟨raw, rest, hl, hraw⟩ := eq_append_cons_of_mem h
  exact ⟨raw, rest, hl, hraw⟩

/-- The buffer has at most `m` octets of an incomplete line, and what one read brought after them. -/
def Near (m : ℕ) (l : Bytes) : Prop := ∃ a c : Bytes, l = a ++ c ∧ LF ∉ a ∧ a.length ≤ m ∧ c.length ≤ 4096

theorem near_of_length_le (h : l.length ≤ 4096) : Near m l :=
  ⟨[], l, rfl, not_mem_nil, Nat.zero_le m, h⟩

theorem Near.line (h : Near m (raw ++ LF :: rest)) :
    raw.length ≤ m + 4095 ∧ rest.length ≤ 4095 := by
  obtain ⟨a, c, he, ha, hm, hc⟩ := h
  have key : a.length ≤ raw.length ∧ (LF :: rest).length ≤ c.length := by
    obtain ⟨x, hr, hl⟩ | ⟨x, hr, hl⟩ := append_eq_append_iff.mp he
    · cases x with
      | nil =>
        rw [append_nil] at hr
        rw [nil_append] at hl
        exact ⟨by rw [hr], by rw [hl]⟩
      | cons y x =>
        obtain ⟨rfl, -⟩ := List.cons.inj hl
        exact absurd (by rw [hr]; simp) ha
    · rw [hr, hl]
      simp
  have hlen := congrArg List.length he
  simp only [length_append, length_cons] at hlen key
  omega

theorem near_fillMore (hlf : LF ∉ b.leftover) (hlen : b.leftover.length ≤ m)
    (hfill : b.fillMore = some b') : Near m b'.leftover := by
  have hle := length_read_le b.wire 4096
  unfold BufferedWire.fillMore at hfill
  split at hfill
  · cases hfill
  · next c got wire he =>
    cases hfill
    rw [he] at hle
    exact ⟨b.leftover, c :: got, rfl, hlf, hlen, hle⟩

/-- **An accepted header block is the one of the octets**; its lines pass the limit by at most a read. -/
theorem block_of_readHeaders {out hs' : HttpHeaders} (h : readHeaders b out m = some (hs', b')) :
    ∃ hs ns, hs' = out ++ hs ∧ Block (contents b) hs (contents b') ns ∧
      (Near m b.leftover → ∀ n ∈ ns, n ≤ m + 4095) := by
  -- a line taken shortens what is buffered, a read moves octets of the wire into it
  induction hN : b.leftover.length + 2 * left b.wire using Nat.strong_induction_on generalizing b out with
  | _ N ih =>
  subst hN
  by_cases hmem : LF ∈ b.leftover
  · obtain ⟨raw, rest, hb, hraw⟩ := exists_raw_of_mem hmem
    obtain ⟨l, w⟩ := b
    obtain rfl : l = raw ++ LF :: rest := hb
    have hc : contents (BufferedWire.mk (raw ++ LF :: rest) w) = raw ++ LF :: (rest ++ contents w) :=
      append_assoc ..
    rw [readHeaders_raw hraw] at h
    rw [hc]
    cases hl : headerLine raw with
    | none =>
      rw [hl] at h
      cases h
    | some x =>
      rw [hl] at h
      cases x with
      | none =>
        cases h
        refine ⟨[], [raw.length], (append_nil _).symm, .last _ hraw hl, fun hn => ?_⟩
        simpa using hn.line.1
      | some x =>
        obtain ⟨hs, ns, rfl, hblock, hle⟩ := ih _ (by simp; omega) h rfl
        refine ⟨x :: hs, raw.length :: ns, by simp, .field hraw hl hblock, fun hn => ?_⟩
        obtain ⟨hlen, hrest⟩ := hn.line
        have hnear : Near m (BufferedWire.mk rest w).leftover := near_of_length_le (Nat.le_succ_of_le hrest)
        exact forall_mem_cons.mpr ⟨hlen, hle hnear⟩
  · rw [readHeaders, lineAt_eq_none.mpr hmem] at h
    dsimp only at h
    split_ifs at h with hm
    split at h
    · cases h
    · next b₁ hfill =>
      obtain ⟨hsame, hlt⟩ := BufferedWire.fillMore_some hfill
      have hless : b₁.leftover.length + 2 * left b₁.wire < b.leftover.length + 2 * left b.wire := by
        have hlen := congrArg List.length hsame
        simp only [BufferedWire.contents, length_append] at hlen
        simp only [left] at hlt ⊢
        omega
      obtain ⟨hs, ns, he, hblock, hle⟩ := ih _ hless h rfl
      rw [show contents b₁ = contents b from hsame] at hblock
      exact ⟨hs, ns, he, hblock, fun _ => hle (near_fillMore hmem (not_lt.mp hm) hfill)⟩

theorem line_of_readRequestLine {b b' : BufferedWire ω} {r : HttpResource} {m : ℕ}
    (h : readRequestLine b m = some (r, b')) :
    ∃ raw bs, contents b = raw ++ LF :: bs ∧ LF ∉ raw ∧ requestLine raw = some r ∧
      contents b' = bs ∧
      (Near m b.leftover → raw.length ≤ m + 4095 ∧ b'.leftover.length ≤ 4095) := by
  by_cases hmem : LF ∈ b.leftover
  · obtain ⟨raw, rest, hb, hraw⟩ := exists_raw_of_mem hmem
    obtain ⟨l, w⟩ := b
    obtain rfl : l = raw ++ LF :: rest := hb
    rw [readRequestLine_raw hraw] at h
    obtain ⟨r', hr', he⟩ := map_eq_some_iff.mp h
    cases he
    exact ⟨raw, rest ++ contents w, append_assoc .., hraw, hr', rfl, fun hn => hn.line⟩
  · have hmore : tryParse b.leftover = .more := by
      rw [tryParse, lineAt_eq_none.mpr hmem]
    rw [readRequestLine, hmore] at h
    dsimp only at h
    split_ifs at h with hm
    split at h
    · cases h
    · next b₁ hfill =>
      obtain ⟨hsame, hlt⟩ := BufferedWire.fillMore_some hfill
      obtain ⟨raw, bs, hc, hraw, hr, hb, hle⟩ := line_of_readRequestLine h
      exact ⟨raw, bs, hsame.symm.trans hc, hraw, hr, hb,
        fun _ => hle (near_fillMore hmem (not_lt.mp hm) hfill)⟩
termination_by left b.wire

end Lines

/-! ## Octet by octet, and with a cut at the limit -/

variable {bs rest : Bytes} {hs : HttpHeaders} {m n : ℕ} {ns : List ℕ} {p : Params} {r : HttpResource}

theorem readRequestLine_long {t : Bytes} (rest l : Bytes) {m : ℕ} (hlf : LF ∉ l ++ t)
    (hm : m < (l ++ t).length) : readRequestLine ⟨l, singles (t ++ rest)⟩ m = none := by
  have hl : LF ∉ l := fun h => hlf (mem_append_left _ h)
  by_cases hlen : m < l.length
  · have hmore : tryParse l = .more := by
      rw [tryParse, lineAt_eq_none.mpr hl]
    rw [readRequestLine]
    dsimp only
    rw [hmore]
    exact if_pos hlen
  · cases t with
    | nil =>
      rw [append_nil] at hm
      exact absurd hm hlen
    | cons c t =>
      rw [append_cons] at hlf hm
      rw [cons_append, readRequestLine_fill _ _ hl (not_lt.mp hlen) (fillMore_singles l c _)]
      exact readRequestLine_long rest (l ++ [c]) hlf hm
termination_by t.length

/-- The octets in front of a stream, one by one. -/
def singlesBefore (a : Bytes) (s : Segments UInt8) : Segments UInt8 :=
  a.foldr (fun c s => Segments.cons [c] (cons_ne_nil c []) s) s

theorem contents_singlesBefore (a : Bytes) (s : Segments UInt8) :
    contents (singlesBefore a s) = a ++ contents s := by
  induction a with
  | nil => rfl
  | cons c a ih => exact congrArg (c :: ·) ih

theorem fillMore_cons (l : Bytes) {p : Bytes} (hp : p ≠ []) (s : Segments UInt8) (hlen : p.length ≤ 4096) :
    (BufferedWire.mk l (cons p hp s)).fillMore = some ⟨l ++ p, s⟩ := by
  unfold BufferedWire.fillMore
  rw [read_cons hp s hlen]
  cases p with
  | nil => exact absurd rfl hp
  | cons c p => rfl

theorem fill_singlesBefore {γ : Type} {f : BufferedWire (Segments UInt8) → γ}
    (hf : ∀ b b', LF ∉ b.leftover → b.leftover.length ≤ m → b.fillMore = some b' → f b = f b')
    (a l : Bytes) (s : Segments UInt8) (hlf : LF ∉ l ++ a) (hm : (l ++ a).length ≤ m) :
    f ⟨l, singlesBefore a s⟩ = f ⟨l ++ a, s⟩ := by
  induction a generalizing l with
  | nil => rw [append_nil]; rfl
  | cons c a ih =>
    have hl : LF ∉ l := fun h => hlf (mem_append_left _ h)
    have hlen : l.length ≤ m := by
      rw [length_append] at hm
      omega
    rw [append_cons] at hlf hm ⊢
    rw [← ih (l ++ [c]) hlf hm]
    exact hf _ _ hl hlen (fillMore_cons l (cons_ne_nil c []) _ (by simp))

/-- A line cut into octets up to the limit, and the rest of it in one piece. -/
def cutAtLimit (m : ℕ) (raw : Bytes) (s : Segments UInt8) : Segments UInt8 :=
  singlesBefore (raw.take m) (Segments.cons (raw.drop m ++ [LF]) (by simp) s)

theorem contents_cutAtLimit (m : ℕ) (raw : Bytes) (s : Segments UInt8) :
    contents (cutAtLimit m raw s) = raw ++ LF :: contents s := by
  rw [cutAtLimit, contents_singlesBefore, contents_cons, append_assoc, ← append_assoc,
    take_append_drop]
  rfl

theorem fill_cutAtLimit {γ : Type} {f : BufferedWire (Segments UInt8) → γ}
    (hf : ∀ b b', LF ∉ b.leftover → b.leftover.length ≤ m → b.fillMore = some b' → f b = f b')
    {raw : Bytes} (hraw : LF ∉ raw) (hm : raw.length ≤ m + 4095) (s : Segments UInt8) :
    f ⟨[], cutAtLimit m raw s⟩ = f ⟨raw ++ [LF], s⟩ := by
  have hlf : LF ∉ raw.take m := fun h => hraw (mem_of_mem_take h)
  have hlen : (raw.take m).length ≤ m := length_take_le m raw
  have hpiece : (raw.drop m ++ [LF]).length ≤ 4096 := by
    rw [length_append, length_drop, length_singleton]
    omega
  rw [cutAtLimit, fill_singlesBefore hf _ [] _ hlf hlen, nil_append,
    hf _ _ hlf hlen (fillMore_cons _ _ s hpiece), ← append_assoc, take_append_drop]

/-- **With a cut at the limit a longer line is accepted.** -/
theorem exists_segments_of_block (hb : Block bs hs rest ns) (hm : ∀ n ∈ ns, n ≤ m + 4095) (out : HttpHeaders) :
    ∃ w : Segments UInt8, contents w = bs ∧ ∃ b', readHeaders ⟨[], w⟩ out m = some (out ++ hs, b') := by
  induction hb generalizing out with
  | @last raw rest hraw hl =>
    refine ⟨cutAtLimit m raw (singles rest), ?_, ⟨[], singles rest⟩, ?_⟩
    · rw [contents_cutAtLimit, contents_singles]
    · rw [fill_cutAtLimit (readHeaders_fill out) hraw (hm _ mem_cons_self), readHeaders_raw hraw, hl,
        append_nil]
  | @field raw bs x hs rest ns hraw hl hblock ih =>
    obtain ⟨hraw', hns⟩ := forall_mem_cons.mp hm
    obtain ⟨w, hw, b', hb'⟩ := ih hns (out ++ [x])
    refine ⟨cutAtLimit m raw w, ?_, b', ?_⟩
    · rw [contents_cutAtLimit, hw]
    · rw [fill_cutAtLimit (readHeaders_fill out) hraw hraw', readHeaders_raw hraw, hl]
      dsimp only
      rw [hb', append_assoc, singleton_append]

/-! ## Heads -/

/-- `read_request_line` followed by `read_headers`. -/
def readHead {ω : Type} [Source ω UInt8] (p : Params) (b : BufferedWire ω) :
    Option (HttpResource × HttpHeaders × BufferedWire ω) :=
  match readRequestLine b p.maxRequestLineSize with
  | none => none
  | some (resource, b) =>
    match readHeaders b [] p.maxHeaderSize with
    | none => none
    | some (headers, b) => some (resource, headers, b)

/-- The head of a request, and the octets that are left. -/
def headOf (p : Params) (w : Segments UInt8) : Option (HttpResource × HttpHeaders × Bytes) :=
  (readHead p ⟨[], w⟩).map fun x => (x.1, x.2.1, Source.contents x.2.2)

inductive Head : Bytes → HttpResource → HttpHeaders → Bytes → ℕ → List ℕ → Prop
  | mk {raw bs : Bytes} {r : HttpResource} {hs : HttpHeaders} {rest : Bytes} {ns : List ℕ} : LF ∉ raw →
      requestLine raw = some r → Block bs hs rest ns → Head (raw ++ LF :: bs) r hs rest raw.length ns

theorem head_of_headOf {w : Segments UInt8} (h : headOf p w = some (r, hs, rest)) :
    ∃ n ns, Head (contents w) r hs rest n ns ∧ n ≤ p.maxRequestLineSize + 4095 ∧
      ∀ k ∈ ns, k ≤ p.maxHeaderSize + 4095 := by
  obtain ⟨⟨r', hs', b'⟩, hr, he⟩ := map_eq_some_iff.mp h
  cases he
  unfold readHead at hr
  split at hr
  · cases hr
  · next b hline =>
    split at hr
    · cases hr
    · next hheaders =>
      cases hr
      obtain ⟨raw, bs, hc, hraw, hreq, hb, hnear⟩ := line_of_readRequestLine hline
      obtain ⟨hlen, hleft⟩ := hnear (near_of_length_le (Nat.zero_le _))
      obtain ⟨hs'', ns, rfl, hblock, hle⟩ := block_of_readHeaders hheaders
      rw [hb] at hblock
      refine ⟨raw.length, ns, ?_, hlen, hle (near_of_length_le (Nat.le_succ_of_le hleft))⟩
      have hcontents : contents w = raw ++ LF :: bs := hc
      rw [hcontents]
      exact .mk hraw hreq hblock

/-- A head with lines within the limits is accepted, however it arrives. -/
theorem headOf_of_fits (h : Head bs r hs rest n ns) (hn : n ≤ p.maxRequestLineSize)
    (hns : ∀ k ∈ ns, k ≤ p.maxHeaderSize) (w : Segments UInt8) (hw : contents w = bs) :
    headOf p w = some (r, hs, rest) := by
  obtain ⟨hraw, hreq, hblock⟩ := h
  obtain ⟨l, w', hr, he⟩ := BufferedWire.fill_raw readRequestLine_fill hraw hn ⟨[], w⟩ hw
  rw [readRequestLine_raw hraw, hreq] at he
  obtain ⟨b', hb', hc⟩ := exists_readHeaders_of_block hblock hns [] ⟨l, w'⟩ hr
  rw [headOf, readHead, he]
  dsimp only [map_some]
  rw [hb']
  dsimp only [map_some]
  rw [hc, nil_append]

theorem headOf_singles (h : Head bs r hs rest n ns)
    (hlong : ¬(n ≤ p.maxRequestLineSize ∧ ∀ k ∈ ns, k ≤ p.maxHeaderSize)) :
    headOf p (singles bs) = none := by
  obtain ⟨hraw, hreq, hblock⟩ := h
  rename_i raw bs
  by_cases hn : p.maxRequestLineSize < raw.length
  · rw [headOf, readHead, readRequestLine_long (LF :: bs) [] hraw hn]
    rfl
  · obtain ⟨k, hk, hlt⟩ : ∃ k ∈ ns, p.maxHeaderSize < k := by
      by_contra hall
      push Not at hall
      exact hlong ⟨not_lt.mp hn, hall⟩
    rw [headOf, readHead, fill_singles readRequestLine_fill bs [] hraw (not_lt.mp hn), nil_append,
      readRequestLine_raw hraw, hreq]
    dsimp only [map_some]
    rw [readHeaders_singles_of_block hblock ⟨k, hk, hlt⟩]
    rfl

/-- With cuts at the limits a head is accepted if no line is over its limit by more than a read. -/
theorem exists_headOf (h : Head bs r hs rest n ns) (hn : n ≤ p.maxRequestLineSize + 4095)
    (hns : ∀ k ∈ ns, k ≤ p.maxHeaderSize + 4095) :
    ∃ w : Segments UInt8, contents w = bs ∧ (headOf p w).isSome = true := by
  obtain ⟨hraw, hreq, hblock⟩ := h
  rename_i raw bs
  obtain ⟨w, hw, b', hb'⟩ := exists_segments_of_block hblock hns []
  refine ⟨cutAtLimit p.maxRequestLineSize raw w, by rw [contents_cutAtLimit, hw], ?_⟩
  rw [headOf, readHead, fill_cutAtLimit readRequestLine_fill hraw hn, readRequestLine_raw hraw, hreq]
  dsimp only [map_some]
  rw [hb']
  rfl

/-- **When the cuts do not matter**: exactly if the head is not one whose lines are all over their limits by less than
a read, and one of them is over its limit. -/
theorem head_agrees_iff (p : Params) (bs : Bytes) :
    (∀ w₁ w₂ : Segments UInt8, Source.contents w₁ = bs → Source.contents w₂ = bs →
      headOf p w₁ = headOf p w₂) ↔
    ∀ r hs rest n ns, Head bs r hs rest n ns → n ≤ p.maxRequestLineSize + 4095 →
      (∀ k ∈ ns, k ≤ p.maxHeaderSize + 4095) →
      n ≤ p.maxRequestLineSize ∧ ∀ k ∈ ns, k ≤ p.maxHeaderSize := by
  constructor
  · intro h r hs rest n ns hhead hn hns
    by_contra hlong
    obtain ⟨w, hw, hsome⟩ := exists_headOf hhead hn hns
    rw [h w (Segments.singles bs) hw (Segments.contents_singles bs), headOf_singles hhead hlong] at hsome
    cases hsome
  · intro h
    have key : ∀ w₁ w₂ : Segments UInt8, Source.contents w₁ = bs → Source.contents w₂ = bs →
        ∀ x, headOf p w₁ = some x → headOf p w₂ = some x := by
      rintro w₁ w₂ h₁ h₂ ⟨r, hs, rest⟩ hx
      obtain ⟨n, ns, hhead, hn, hns⟩ := head_of_headOf hx
      rw [h₁] at hhead
      obtain ⟨hn', hns'⟩ := h r hs rest n ns hhead hn hns
      exact headOf_of_fits hhead hn' hns' w₂ h₂
    intro w₁ w₂ h₁ h₂
    cases hx : headOf p w₁ with
    | some x => exact (key w₁ w₂ h₁ h₂ x hx).symm
    | none =>
      cases hy : headOf p w₂ with
      | none => rfl
      | some y =>
        rw [key w₂ w₁ h₂ h₁ y hy] at hx
        cases hx

/-- A request line of fifteen octets where eight are allowed: refused octet by octet, accepted in one
piece. -/
theorem head_disagrees :
    headOf { maxHeaderSize := 16, maxRequestLineSize := 8 }
        (Segments.singles (ascii "GET / HTTP/1.1\r\n\r\n")) = none ∧
      (headOf { maxHeaderSize := 16, maxRequestLineSize := 8 }
        ⟨[ascii "GET / HTTP/1.1\r\n\r\n"], by decide⟩).map (fun x => (x.2.1, x.2.2)) = some ([], []) := by
  decide +kernel

end Nhttp.Server
