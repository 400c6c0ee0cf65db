import Nhttp.Protocol.Status
import Nhttp.Server.Http1Io

/-!
# Header blocks, written and read

* `BufferedWire.fill_raw`: what waits for the end of a line gets it, however the octets arrive.
* `HttpHeader.Plain`: a field that is one line and keeps its name and value.
* **`readHeaders_writeTo_iff`**: a written block is read back as a whole exactly if all its fields
  are plain; every octet that ends a line early shows in the number of fields.
-/

open List hiding not_lt

namespace Nhttp.Protocol

open Octets

structure IsFieldName (name : Bytes) : Prop where
  ne_nil : name ≠ []
  colon : 0x3a ∉ name
  lf : LF ∉ name

instance (name : Bytes) : Decidable (IsFieldName name) :=
  decidable_of_iff (name ≠ [] ∧ 0x3a ∉ name ∧ LF ∉ name)
    ⟨fun ⟨h₁, h₂, h₃⟩ => ⟨h₁, h₂, h₃⟩, fun h => ⟨h.ne_nil, h.colon, h.lf⟩⟩

structure IsFieldValue (value : Bytes) : Prop where
  lf : LF ∉ value
  trim : trim value = value

instance (value : Bytes) : Decidable (IsFieldValue value) :=
  decidable_of_iff (LF ∉ value ∧ Protocol.trim value = value)
    ⟨fun ⟨h₁, h₂⟩ => ⟨h₁, h₂⟩, fun h => ⟨h.lf, h.trim⟩⟩

theorem isFieldValue_decimalDigits (n : ℕ) : IsFieldValue (decimalDigits n) := by
  have hdigit : ∀ c : UInt8, isDigit c = true → c ≠ LF ∧ isBlank c = false := by decide +kernel
  have h := isDigit_decimalDigits n
  exact ⟨fun hm => (hdigit _ (h _ hm)).1 rfl, trim_eq_self (fun c hc => (hdigit c (h c (mem_of_mem_head? hc))).2)
    fun c hc => (hdigit c (h c (mem_of_mem_getLast? hc))).2⟩

def HttpHeader.Plain (h : HttpHeader) : Prop := IsFieldName h.name ∧ IsFieldValue h.value

instance (h : HttpHeader) : Decidable h.Plain := inferInstanceAs (Decidable (_ ∧ _))

/-- One line that keeps the name, and the value up to blanks around it. -/
def HttpHeader.OneLine (h : HttpHeader) : Prop := IsFieldName h.name ∧ LF ∉ h.value

instance (h : HttpHeader) : Decidable h.OneLine := inferInstanceAs (Decidable (_ ∧ _))

def HttpHeader.trimmed (h : HttpHeader) : HttpHeader := { h with value := trim h.value }

def HttpHeader.line (h : HttpHeader) : Bytes := h.name ++ ascii ": " ++ h.value

variable {h : HttpHeader} {v : Bytes}

theorem HttpHeader.Plain.trimmed (hp : h.Plain) : h.trimmed = h := by
  obtain ⟨-, hvalue⟩ := hp
  rw [HttpHeader.trimmed, hvalue.trim]

theorem HttpHeader.line_eq (h : HttpHeader) : h.line = h.name ++ 0x3a :: 0x20 :: h.value := by
  simp [HttpHeader.line, ascii]

theorem HttpHeader.not_mem_line : LF ∉ h.line ↔ LF ∉ h.name ∧ LF ∉ h.value := by
  have h1 : LF ≠ 0x3a := by decide
  have h2 : LF ≠ 0x20 := by decide
  simp [HttpHeader.line_eq, h1, h2]

theorem HttpHeaders.writeTo_cons (h : HttpHeader) (hs : HttpHeaders) (rest : Bytes) :
    HttpHeaders.writeTo (h :: hs) ++ rest = h.line ++ CR :: LF :: (HttpHeaders.writeTo hs ++ rest) := by
  simp [HttpHeaders.writeTo, HttpHeader.line]

theorem isBlank_of_trim {c : UInt8} (h : trim (c :: v) = c :: v) : isBlank c = false := by
  by_contra hc
  have hdrop : trim (c :: v) = trim v := by
    rw [trim, dropWhile_cons_of_pos (by simpa using hc), trim]
  have hle := (trim_sublist v).length_le
  rw [← hdrop, h, length_cons] at hle
  omega

theorem trim_padded {u w : Bytes} (hu : ∀ c ∈ u, isBlank c = true) (hw : ∀ c ∈ w, isBlank c = true)
    (hv : trim v = v) : trim (u ++ (v ++ w)) = v := by
  rw [trim, dropWhile_append_of_pos hu]
  cases v with
  | nil => rw [nil_append, dropWhile_eq_nil_iff.mpr hw, rdropWhile_nil]
  | cons c v =>
    have hc : ¬isBlank c = true := by
      rw [isBlank_of_trim hv]
      exact Bool.false_ne_true
    rw [trim, dropWhile_cons_of_neg hc] at hv
    have hrev : ∀ x ∈ w.reverse, isBlank x = true := fun x hx => hw x (mem_reverse.mp hx)
    rw [cons_append, dropWhile_cons_of_neg hc, ← cons_append, List.rdropWhile,
      reverse_append, dropWhile_append_of_pos hrev]
    exact hv

theorem cutAt_line (h : HttpHeader) :
    ∃ n v, cutAt 0x3a h.line = some (n, v) ∧ (n = h.name ↔ 0x3a ∉ h.name) ∧
      (0x3a ∉ h.name → v = 0x20 :: h.value) := by
  rw [h.line_eq]
  by_cases hc : (0x3a : UInt8) ∈ h.name
  · obtain ⟨n, v, hcut⟩ : ∃ n v, cutAt 0x3a h.name = some (n, v) := ⟨_, _, if_pos hc⟩
    obtain ⟨hname, hn⟩ := cutAt_eq_some.mp hcut
    refine ⟨n, v ++ 0x3a :: 0x20 :: h.value, ?_, iff_of_false ?_ (not_not.mpr hc), absurd hc⟩
    · rw [hname, append_assoc, cons_append, cutAt_append_cons hn]
    · rintro rfl
      exact hn hc
  · exact ⟨h.name, _, cutAt_append_cons hc _, iff_of_true rfl hc, fun _ => rfl⟩

end Nhttp.Protocol

namespace Nhttp.Server

open Octets Reading Protocol

variable {ω : Type} [Source ω UInt8]

/-! ## Lines that arrive in pieces -/

variable {b b' : BufferedWire ω} {raw rest line n v t : Bytes} {m : ℕ} {h : HttpHeader} {hs out : HttpHeaders}
  {w : ω}

theorem BufferedWire.fillMore_eq_none (h : b.fillMore = none) :
    Source.contents b.wire = [] := by
  refine Source.contents_of_read_nil b.wire 4096 (by omega) ?_
  unfold BufferedWire.fillMore at h
  split at h
  · next he => rw [he]
  · cases h

theorem leftover_of_mem (hb : Source.contents b = raw ++ LF :: rest) (hlf : LF ∉ raw) (hm : LF ∈ b.leftover) :
    ∃ r, b.leftover = raw ++ LF :: r ∧ r ++ Source.contents b.wire = rest := by
  have hall : b.leftover <+: Source.contents b := prefix_append _ _
  have hpre : raw ++ [LF] <+: b.leftover := by
    refine prefix_of_prefix_length_le ⟨rest, by rw [hb]; simp⟩ hall ?_
    by_contra hlt
    have hle : b.leftover <+: raw := by
      refine prefix_of_prefix_length_le hall ⟨LF :: rest, by rw [hb]⟩ ?_
      rw [length_append, length_singleton] at hlt
      omega
    exact hlf (hle.subset hm)
  obtain ⟨r, hr⟩ := hpre
  refine ⟨r, by rw [← hr]; simp, ?_⟩
  have : raw ++ [LF] ++ (r ++ Source.contents b.wire) = raw ++ [LF] ++ rest := by
    rw [← append_assoc, hr]
    exact hb.trans (by simp)
  exact append_cancel_left this

/-- **Lines arrive**: what fills the buffer up to a line feed goes on with the whole line in it. -/
theorem BufferedWire.fill_raw {γ : Type} {f : BufferedWire ω → γ}
    (hf : ∀ b b', LF ∉ b.leftover → b.leftover.length ≤ m → b.fillMore = some b' → f b = f b')
    (hlf : LF ∉ raw) (hm : raw.length ≤ m) (b : BufferedWire ω)
    (hb : Source.contents b = raw ++ LF :: rest) :
    ∃ r w, r ++ Source.contents w = rest ∧ f b = f ⟨raw ++ LF :: r, w⟩ := by
  by_cases hmem : LF ∈ b.leftover
  · obtain ⟨r, hr, hrest⟩ := leftover_of_mem hb hlf hmem
    exact ⟨r, b.wire, hrest, by rw [← hr]⟩
  · have hlen : b.leftover.length ≤ m := by
      have hall : b.leftover <+: Source.contents b := prefix_append _ _
      have hline : raw ++ [LF] <+: Source.contents b := ⟨rest, by rw [hb]; simp⟩
      by_contra hlt
      have hle : (raw ++ [LF]).length ≤ b.leftover.length := by
        rw [length_append, length_singleton]
        omega
      exact hmem ((prefix_of_prefix_length_le hline hall hle).subset (by simp))
    cases hfill : b.fillMore with
    | none =>
      have : Source.contents b = b.leftover := by
        rw [show Source.contents b = b.leftover ++ Source.contents b.wire from rfl,
          BufferedWire.fillMore_eq_none hfill, append_nil]
      exact absurd (by rw [← this, hb]; simp) hmem
    | some b' =>
      obtain ⟨hc, hlt⟩ := BufferedWire.fillMore_some hfill
      rw [hf b b' hmem hlen hfill]
      exact fill_raw hf hlf hm b' (hc.trans hb)
termination_by left b.wire

theorem readHeaders_fill (out : HttpHeaders) (b b' : BufferedWire ω) (hlf : LF ∉ b.leftover)
    (hlen : b.leftover.length ≤ m) (hfill : b.fillMore = some b') :
    readHeaders b out m = readHeaders b' out m := by
  conv_lhs => rw [readHeaders, lineAt_eq_none.mpr hlf]
  dsimp only
  rw [if_neg (by omega)]
  split
  · next h => rw [hfill] at h; cases h
  · next h => rw [hfill] at h; cases h; rfl

/-! ## Lines of a block -/

/-- What a line of a header block is: malformed, the end, or a field. -/
def headerLine (raw : Bytes) : Option (Option HttpHeader) :=
  if stripCr raw = [] then some none
  else match cutAt 0x3a (stripCr raw) with
    | none => none
    | some (name, value) => if name = [] then none else some (some ⟨name, trim value⟩)

theorem drop_line (raw rest : Bytes) : (raw ++ LF :: rest).drop (raw.length + 1) = rest := by
  rw [← drop_drop, drop_left]
  rfl

theorem readHeaders_raw (hlf : LF ∉ raw) (rest : Bytes) (w : ω) (out : HttpHeaders) (m : ℕ) :
    readHeaders ⟨raw ++ LF :: rest, w⟩ out m =
      match headerLine raw with
      | none => none
      | some none => some (out, ⟨rest, w⟩)
      | some (some x) => readHeaders ⟨rest, w⟩ (out ++ [x]) m := by
  have hparse : HttpHeader.tryParse (raw ++ LF :: rest) =
      match cutAt 0x3a (stripCr raw) with
      | none => .malformed
      | some (name, value) => if name = [] then .malformed else .done (raw.length + 1) ⟨name, trim value⟩ := by
    unfold HttpHeader.tryParse
    split
    · next hl =>
      rw [lineAt_raw hlf] at hl
      cases hl
    · next hl =>
      rw [lineAt_raw hlf] at hl
      cases hl
      rfl
  rw [readHeaders]
  rw [lineAt_raw hlf]
  dsimp only
  by_cases he : stripCr raw = []
  · rw [if_pos he, headerLine, if_pos he, drop_line]
  · rw [if_neg he, headerLine, if_neg he]
    cases hc : cutAt 0x3a (stripCr raw) with
    | none =>
      rw [hc] at hparse
      split
      · next heq => rw [hparse] at heq; cases heq
      · rfl
    | some nv =>
      obtain ⟨name, value⟩ := nv
      rw [hc] at hparse
      dsimp only at hparse ⊢
      by_cases hn : name = []
      · rw [if_pos hn] at hparse ⊢
        split
        · next heq => rw [hparse] at heq; cases heq
        · rfl
      · rw [if_neg hn] at hparse ⊢
        split
        · next heq =>
          rw [hparse] at heq
          cases heq
          rw [drop_line]
          rfl
        · next hne => exact absurd hparse (hne _ _)

theorem not_mem_append_cr (h : LF ∉ line) : LF ∉ line ++ [CR] := by
  rw [mem_append]
  exact not_or.mpr ⟨h, by decide⟩

theorem headerLine_crlf (hc : cutAt 0x3a line = some (n, v)) :
    headerLine (line ++ [CR]) = if n = [] then none else some (some ⟨n, trim v⟩) := by
  have hne : line ≠ [] := by
    rintro rfl
    cases hc
  rw [headerLine, stripCr_append_cr, if_neg hne, hc]

theorem readHeaders_line (hlf : LF ∉ line) (rest : Bytes) (w : ω) (out : HttpHeaders)
    (m : ℕ) (hc : cutAt 0x3a line = some (n, v)) :
    readHeaders ⟨line ++ CR :: LF :: rest, w⟩ out m =
      if n = [] then none else readHeaders ⟨rest, w⟩ (out ++ [⟨n, trim v⟩]) m := by
  rw [append_cons, readHeaders_raw (not_mem_append_cr hlf), headerLine_crlf hc]
  split_ifs <;> rfl

theorem readHeaders_end (rest : Bytes) (w : ω) (out : HttpHeaders) (m : ℕ) :
    readHeaders ⟨CR :: LF :: rest, w⟩ out m = some (out, ⟨rest, w⟩) :=
  readHeaders_raw (by decide : LF ∉ [CR]) rest w out m

/-- A header block at the start of some octets: its fields, what follows it, and the lengths of its lines. -/
inductive Block : Bytes → HttpHeaders → Bytes → List ℕ → Prop
  | last {raw : Bytes} (rest : Bytes) : LF ∉ raw → headerLine raw = some none →
      Block (raw ++ LF :: rest) [] rest [raw.length]
  | field {raw bs : Bytes} {h : HttpHeader} {hs : HttpHeaders} {rest : Bytes} {ns : List ℕ} : LF ∉ raw →
      headerLine raw = some (some h) → Block bs hs rest ns →
      Block (raw ++ LF :: bs) (h :: hs) rest (raw.length :: ns)

/-- **A header block with lines within the limit is accepted.** -/
theorem exists_readHeaders_of_block {bs : Bytes} {hs : HttpHeaders} {ns : List ℕ}
    (hb : Block bs hs rest ns) (hm : ∀ n ∈ ns, n ≤ m) (out : HttpHeaders) (b : BufferedWire ω)
    (hc : Source.contents b = bs) :
    ∃ b', readHeaders b out m = some (out ++ hs, b') ∧ Source.contents b' = rest := by
  induction hb generalizing out b with
  | last rest hraw hl =>
    obtain ⟨r, w, hr, he⟩ := BufferedWire.fill_raw (readHeaders_fill out) hraw (hm _ mem_cons_self) b hc
    refine ⟨⟨r, w⟩, ?_, hr⟩
    rw [he, readHeaders_raw hraw, hl, append_nil]
  | @field raw bs x hs rest ns hraw hl hblock ih =>
    obtain ⟨hraw', hns⟩ := forall_mem_cons.mp hm
    obtain ⟨r, w, hr, he⟩ := BufferedWire.fill_raw (readHeaders_fill out) hraw hraw' b hc
    obtain ⟨b', hb', hc'⟩ := ih hns (out ++ [x]) ⟨r, w⟩ hr
    refine ⟨b', ?_, hc'⟩
    rw [he, readHeaders_raw hraw, hl]
    dsimp only
    rw [hb', append_assoc, singleton_append]

theorem block_of_lines {α : Type} {line : α → Bytes} {header : α → HttpHeader} {xs : List α}
    (h : ∀ x ∈ xs, LF ∉ line x ∧ headerLine (line x ++ [CR]) = some (some (header x))) (rest : Bytes) :
    Block (xs.flatMap (fun x => line x ++ [CR, LF]) ++ CR :: LF :: rest) (xs.map header) rest
      (xs.map (fun x => (line x).length + 1) ++ [1]) := by
  induction xs with
  | nil =>
    have hlast : Block ([CR] ++ LF :: rest) [] rest [[CR].length] := .last rest (by decide) rfl
    exact hlast
  | cons x xs ih =>
    obtain ⟨⟨hlf, hline⟩, hrest⟩ := forall_mem_cons.mp h
    have hb := Block.field (not_mem_append_cr hlf) hline (ih hrest)
    simpa using hb

/-! ## Plain fields -/

theorem headerLine_trimmed (hname : IsFieldName h.name) :
    headerLine (h.line ++ [CR]) = some (some h.trimmed) := by
  obtain ⟨n, v, hc, hn, hv⟩ := cutAt_line h
  rw [headerLine_crlf hc, hn.mpr hname.colon, if_neg hname.ne_nil, hv hname.colon]
  rfl

theorem block_writeTo (hp : ∀ x ∈ hs, x.OneLine) (rest : Bytes) :
    Block (hs.writeTo ++ CR :: LF :: rest) (hs.map HttpHeader.trimmed) rest
      (hs.map (fun x => x.line.length + 1) ++ [1]) :=
  block_of_lines (fun x hx => ⟨HttpHeader.not_mem_line.mpr ⟨(hp x hx).1.lf, (hp x hx).2⟩,
    headerLine_trimmed (hp x hx).1⟩) rest

theorem readHeaders_oneLine (hp : h.OneLine) (rest : Bytes) (w : ω) (out : HttpHeaders) (m : ℕ) :
    readHeaders ⟨h.line ++ CR :: LF :: rest, w⟩ out m = readHeaders ⟨rest, w⟩ (out ++ [h.trimmed]) m := by
  have hlf : LF ∉ h.line := HttpHeader.not_mem_line.mpr ⟨hp.1.lf, hp.2⟩
  rw [append_cons, readHeaders_raw (not_mem_append_cr hlf), headerLine_trimmed hp.1]

/-- **Fields of one line are read back** without the blanks around their values. -/
theorem readHeaders_writeTo_trimmed (h : ∀ x ∈ hs, x.OneLine) (rest : Bytes) (w : ω) (out : HttpHeaders) (m : ℕ) :
    readHeaders ⟨hs.writeTo ++ CR :: LF :: rest, w⟩ out m = some (out ++ hs.map HttpHeader.trimmed, ⟨rest, w⟩) := by
  induction hs generalizing out with
  | nil =>
    rw [map_nil, append_nil]
    exact readHeaders_end rest w out m
  | cons x hs ih =>
    rw [HttpHeaders.writeTo_cons, readHeaders_oneLine (h x mem_cons_self),
      ih fun y hy => h y (mem_cons_of_mem _ hy), append_assoc]
    rfl

theorem map_trimmed (h : ∀ x ∈ hs, x.Plain) : hs.map HttpHeader.trimmed = hs := by
  rw [map_congr_left fun x hx => (h x hx).trimmed, map_id']

theorem readHeaders_writeTo (h : ∀ x ∈ hs, x.Plain) (rest : Bytes) (w : ω) (out : HttpHeaders) (m : ℕ) :
    readHeaders ⟨hs.writeTo ++ CR :: LF :: rest, w⟩ out m = some (out ++ hs, ⟨rest, w⟩) := by
  rw [readHeaders_writeTo_trimmed fun x hx => ⟨(h x hx).1, (h x hx).2.lf⟩, map_trimmed h]

/-! ## Blocks that are read back -/

theorem count_line (h : LF ∉ raw) :
    (raw ++ LF :: rest).count LF = rest.count LF + 1 := by
  rw [count_append, count_eq_zero.mpr h, count_cons_self, Nat.zero_add]

/-- At the end of the input, every field and the end of the block take one line feed each. -/
theorem count_readHeaders (hw : Source.contents b.wire = []) (h : readHeaders b out m = some (hs, b')) :
    out <+: hs ∧ hs.length + 1 + b'.leftover.count LF = out.length + b.leftover.count LF := by
  fun_induction readHeaders b out m with
  | case1 | case2 => cases h
  | case3 b out _ _ b₁ hf ih =>
    have := (BufferedWire.fillMore_some hf).2
    rw [left, left, hw] at this
    cases this
  | case4 b out k hl =>
    cases h
    obtain ⟨raw, rest, hb, hraw, -, rfl⟩ := lineAt_eq_some hl
    dsimp only
    rw [hb, drop_line, count_line hraw]
    exact ⟨prefix_rfl, by omega⟩
  | case5 b out line k hl hne k' hd hp ih =>
    obtain ⟨hpre, hcount⟩ := ih hw h
    obtain ⟨raw, rest, hb, hraw, -, hk⟩ := lineAt_eq_some hl
    have hk' : k' = k := by
      unfold HttpHeader.tryParse at hp
      rw [hl] at hp
      dsimp only at hp
      split at hp
      · cases hp
      · split_ifs at hp
        cases hp
        rfl
    dsimp only at hcount
    rw [hk', hk, hb, drop_line, HttpHeaders.add, length_append, length_singleton] at hcount
    rw [hb, count_line hraw]
    exact ⟨(prefix_append _ _).trans hpre, by omega⟩
  | case6 => cases h

theorem count_writeTo (hs : HttpHeaders) :
    hs.writeTo.count LF = hs.length + (hs.map fun h => h.line.count LF).sum := by
  induction hs with
  | nil => rfl
  | cons h hs ih =>
    have := HttpHeaders.writeTo_cons h hs []
    rw [append_nil, append_nil] at this
    rw [this, count_append, count_cons, count_cons, ih, length_cons, map_cons,
      sum_cons]
    have hcr : (CR == LF) = false := by decide
    simp [hcr]
    omega

/-- A block without early line ends is read back only if its fields are plain. -/
theorem plain_of_readHeaders (hw : Source.contents w = []) (hlf : ∀ h ∈ hs, LF ∉ h.line)
    (h : readHeaders ⟨hs.writeTo ++ [CR, LF], w⟩ out m = some (out ++ hs, b')) :
    ∀ x ∈ hs, x.Plain := by
  induction hs generalizing out with
  | nil => simp
  | cons x hs ih =>
    obtain ⟨n, v, hc, hn, hv⟩ := cutAt_line x
    have hx := hlf x mem_cons_self
    rw [HttpHeaders.writeTo_cons, readHeaders_line hx _ w out m hc] at h
    split_ifs at h with hnil
    have hhead : (⟨n, trim v⟩ : HttpHeader) = x := by
      have hpre := (count_readHeaders (b := ⟨HttpHeaders.writeTo hs ++ [CR, LF], w⟩) hw h).1
      rw [prefix_append_right_inj] at hpre
      exact cons_prefix_cons.mp hpre |>.1
    have hname : 0x3a ∉ x.name := hn.mp (congrArg HttpHeader.name hhead)
    have hvalue : trim v = x.value := congrArg HttpHeader.value hhead
    rw [hv hname] at hvalue
    obtain ⟨hlf1, hlf2⟩ := HttpHeader.not_mem_line.mp hx
    have hplain : x.Plain := ⟨⟨by rw [← hn.mpr hname]; exact hnil, hname, hlf1⟩, hlf2, hvalue⟩
    intro y hy
    obtain rfl | hy := mem_cons.mp hy
    · exact hplain
    · rw [hhead, append_cons out x hs] at h
      exact ih (fun z hz => hlf z (mem_cons_of_mem _ hz)) h y hy

/-- **Written blocks.** At the end of the input, a written header block is read back as a whole
exactly if all fields are plain. -/
theorem readHeaders_writeTo_iff (hw : Source.contents w = []) (hs : HttpHeaders) (m : ℕ) :
    (∃ b', readHeaders ⟨hs.writeTo ++ [CR, LF], w⟩ [] m = some (hs, b') ∧ Source.contents b' = []) ↔
      ∀ h ∈ hs, h.Plain := by
  constructor
  · rintro ⟨b', h, hb⟩
    have hleft : b'.leftover = [] := (append_eq_nil_iff.mp hb).1
    have hcount := (count_readHeaders (b := ⟨HttpHeaders.writeTo hs ++ [CR, LF], w⟩) hw h).2
    rw [count_append, count_writeTo, hleft] at hcount
    have hcr : [CR, LF].count LF = 1 := by decide
    rw [hcr] at hcount
    have hsum : (hs.map fun h => h.line.count LF).sum = 0 := by simpa using hcount
    refine plain_of_readHeaders hw (fun x hx => ?_) h
    rw [← count_eq_zero]
    exact sum_eq_zero_iff.mp hsum _ (mem_map_of_mem hx)
  · intro h
    exact ⟨_, readHeaders_writeTo h [] w [] m, hw⟩

/-! ## Octet by octet -/

theorem fillMore_singles (l : Bytes) (c : UInt8) (bs : Bytes) :
    (BufferedWire.mk l (Segments.singles (c :: bs))).fillMore = some ⟨l ++ [c], Segments.singles bs⟩ := by
  unfold BufferedWire.fillMore
  rw [Segments.read_singles_cons c bs (show 0 < 4096 by omega)]

theorem fill_singles {γ : Type} {f : BufferedWire (Segments UInt8) → γ}
    (hf : ∀ b b', LF ∉ b.leftover → b.leftover.length ≤ m → b.fillMore = some b' → f b = f b')
    (rest l : Bytes) (hlf : LF ∉ l ++ t) (hm : (l ++ t).length ≤ m) :
    f ⟨l, Segments.singles (t ++ LF :: rest)⟩ = f ⟨l ++ t ++ [LF], Segments.singles rest⟩ := by
  induction t generalizing l with
  | nil =>
    rw [append_nil] at hlf hm ⊢
    exact hf _ _ hlf hm (fillMore_singles l LF rest)
  | cons c t ih =>
    have hl : LF ∉ l := fun h => hlf (mem_append_left _ h)
    have hlen : l.length ≤ m := by
      rw [length_append] at hm
      omega
    rw [append_cons] at hlf hm
    rw [cons_append, hf _ _ hl hlen (fillMore_singles l c _), ih (l ++ [c]) hlf hm]
    simp

theorem readHeaders_long {t : Bytes} (rest l : Bytes) (out : HttpHeaders) {m : ℕ} (hlf : LF ∉ l ++ t)
    (hm : m < (l ++ t).length) : readHeaders ⟨l, Segments.singles (t ++ rest)⟩ out m = none := by
  have hl : LF ∉ l := fun h => hlf (mem_append_left _ h)
  by_cases hlen : m < l.length
  · rw [readHeaders]
    dsimp only
    rw [lineAt_eq_none.mpr hl]
    exact if_pos hlen
  · cases t with
    | nil =>
      rw [append_nil] at hm
      exact absurd hm hlen
    | cons c t =>
      rw [append_cons] at hlf hm
      rw [cons_append, readHeaders_fill out _ _ hl (not_lt.mp hlen) (fillMore_singles l c _)]
      exact readHeaders_long rest (l ++ [c]) out hlf hm
termination_by t.length

/-- **Octet by octet a line over the limit is refused.** -/
theorem readHeaders_singles_of_block (hb : Block bs hs rest ns) (hm : ∃ n ∈ ns, m < n) (out : HttpHeaders) :
    readHeaders ⟨[], Segments.singles bs⟩ out m = none := by
  induction hb generalizing out with
  | @last raw rest hraw hl =>
    obtain ⟨n, hn, hlt⟩ := hm
    obtain rfl := mem_singleton.mp hn
    exact readHeaders_long (LF :: rest) [] out hraw hlt
  | @field raw bs x hs rest ns hraw hl hblock ih =>
    by_cases hlt : m < raw.length
    · exact readHeaders_long (LF :: bs) [] out hraw hlt
    · have hfill := fill_singles (readHeaders_fill out) bs [] hraw (not_lt.mp hlt)
      rw [hfill, nil_append, readHeaders_raw hraw, hl]
      obtain ⟨n, hn, hlt'⟩ := hm
      obtain rfl | hn := mem_cons.mp hn
      · exact absurd hlt' hlt
      · exact ih ⟨n, hn, hlt'⟩ _

end Nhttp.Server
