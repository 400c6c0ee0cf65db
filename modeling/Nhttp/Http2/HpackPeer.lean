import Nhttp.Http2.HpackRoundTrip

/-!
# The decoder follows every reference encoder

A reference encoder (`Peer`) keeps its own dynamic table and emits representations (`Rep`) of its
choice; `Peer.step` is its own view of a representation, `Rep.bytes` the octets it sends.

* `decodeField_rep`: one representation reads back and keeps the tables equal.
* **`decodeBlocks_eq`**: so does any sequence of blocks.
-/

namespace Nhttp.Http2

open Octets Option BitReader HpackDecoder
open List hiding lt_of_le_of_lt

/-! ## The reference encoder -/

/-- How a string is written. -/
inductive Coding where
  | huffman
  | raw
deriving DecidableEq

inductive NameRef where
  | index (i : ℕ)
  | literal (name : Bytes) (coding : Coding)
deriving DecidableEq

/-- The three literal representations (RFC 7541 §6.2). -/
inductive LiteralKind where
  | incremental
  | withoutIndexing
  | neverIndexed
deriving DecidableEq

/-- A representation (RFC 7541 §6). -/
inductive Rep where
  | indexed (i : ℕ)
  | literal (kind : LiteralKind) (name : NameRef) (value : Bytes) (coding : Coding)
  | sizeUpdate (n : ℕ)
deriving DecidableEq

/-- The reference encoder's state; the front of the table is the entry added last. -/
structure Peer where
  table : List (Bytes × Bytes) := []
  max : ℕ
deriving DecidableEq

def tableSize (t : List (Bytes × Bytes)) : ℕ := (t.map entrySize).sum

/-- Evict from the back while the size exceeds the maximum. -/
def evict (max : ℕ) (t : List (Bytes × Bytes)) : List (Bytes × Bytes) :=
  if _h : max < tableSize t then evict max t.dropLast else t
termination_by t.length
decreasing_by
  cases t with
  | nil => simp [tableSize] at _h
  | cons e t => simp

namespace Peer

/-- The entry at an index: the static table, then the dynamic one (RFC 7541 §2.3.3). -/
def entry (p : Peer) (i : ℕ) : Option (Bytes × Bytes) := match i with
  | 0 => none
  | i + 1 => (staticTable ++ p.table)[i]?

/-- Strings that fit in memory. -/
def Fits (s : Bytes) : Prop := s.length < 2 ^ 60

instance (s : Bytes) : Decidable (Fits s) := by unfold Fits; infer_instance

/-- The name a reference stands for; `none`: the encoder cannot send it. -/
def name (p : Peer) : NameRef → Option Bytes
  | .index i => (p.entry i).map Prod.fst
  | .literal n _ => if Fits n then some n else none

/-- Insert at the front, evict from the back. -/
def insert (p : Peer) (e : Bytes × Bytes) : Peer := { p with table := evict p.max (e :: p.table) }

/-- A representation as the encoder means it: its new state and the field encoded. -/
def step (p : Peer) : Rep → Option (Peer × HeaderList)
  | .indexed i => (p.entry i).map fun e => (p, [⟨e.1, e.2⟩])
  | .literal kind ref value _ =>
    if Fits value then
      (p.name ref).map fun n =>
        (if kind = .incremental then p.insert (n, value) else p, [⟨n, value⟩])
    else none
  | .sizeUpdate n => if n ≤ p.max then some ({ table := evict n p.table, max := n }, []) else none

/-- A header block: the encoder's state after it and the fields encoded. -/
def block (p : Peer) : List Rep → Option (Peer × HeaderList)
  | [] => some (p, [])
  | rep :: reps => do
    let (p, f) ← p.step rep
    let (p, fs) ← p.block reps
    return (p, f ++ fs)

/-- A sequence of blocks: the state after each block and its fields. -/
def blocks (p : Peer) : List (List Rep) → Option (List (Peer × HeaderList))
  | [] => some []
  | reps :: bs => do
    let (p, fs) ← p.block reps
    let rest ← p.blocks bs
    return (p, fs) :: rest

end Peer

/-- A string as the encoder writes it (RFC 7541 §5.2). -/
def Coding.bytes : Coding → Bytes → Bytes
  | .huffman, s => writeString s
  | .raw, s => writeInteger s.length 7 0x00 ++ s

/-- The pattern above the name index, and the width of the index. -/
def LiteralKind.pattern : LiteralKind → UInt8
  | .incremental => 0x40
  | .withoutIndexing => 0x00
  | .neverIndexed => 0x10

def LiteralKind.width : LiteralKind → ℕ
  | .incremental => 6
  | .withoutIndexing | .neverIndexed => 4

/-- The octets of a representation. -/
def Rep.bytes : Rep → Bytes
  | .indexed i => writeInteger i 7 0x80
  | .literal kind (.index i) value c => writeInteger i kind.width kind.pattern ++ c.bytes value
  | .literal kind (.literal n cn) value c =>
    writeInteger 0 kind.width kind.pattern ++ (cn.bytes n ++ c.bytes value)
  | .sizeUpdate n => writeInteger n 5 0x20

def blockBytes (reps : List Rep) : Bytes := reps.flatMap Rep.bytes

def decodeBlocks (d : HpackDecoder) : List Bytes → List HpackDecoder.Decoded
  | [] => []
  | b :: bs => d.decode b [] :: decodeBlocks (d.decode b []).decoder bs

/-! ## The tables agree -/

def Peer.asDecoder (p : Peer) : HpackDecoder := ⟨p.max, tableSize p.table, p.table⟩

theorem tableSize_dropLast {t : List (Bytes × Bytes)} {back : Bytes × Bytes}
    (h : t.getLast? = some back) : tableSize t.dropLast = tableSize t - entrySize back := by
  obtain ⟨l, rfl⟩ := getLast?_eq_some_iff.mp h
  simp [tableSize]

theorem evictToFit_eq (t : List (Bytes × Bytes)) (max : ℕ) :
    evictToFit ⟨max, tableSize t, t⟩ = (⟨evict max t, max⟩ : Peer).asDecoder := by
  fun_induction evict max t with
  | case1 t h ih =>
    rw [evictToFit, if_pos h]
    split
    · rename_i hl
      rw [getLast?_eq_none_iff] at hl
      subst hl
      simp [tableSize] at h
    · rename_i back hl
      rw [tableSize_dropLast hl] at ih
      exact ih
  | case2 t h =>
    rw [evictToFit, if_neg h]
    rfl

theorem addToDynamicTable_asDecoder (p : Peer) (n v : Bytes) :
    p.asDecoder.addToDynamicTable n v = (p.insert (n, v)).asDecoder := by
  have := evictToFit_eq ((n, v) :: p.table) p.max
  simp only [addToDynamicTable, Peer.asDecoder, Peer.insert] at this ⊢
  rw [← this]
  simp [tableSize, Nat.add_comm]

theorem lookupIndexed_asDecoder (p : Peer) (i : ℕ) : p.asDecoder.lookupIndexed i = p.entry i := by
  cases i with
  | zero => rfl
  | succ i =>
    simp only [lookupIndexed, Nat.succ_ne_zero, if_false, Peer.entry, Peer.asDecoder,
      Nat.add_sub_cancel]
    split_ifs with h
    · rw [getElem?_append_left (by omega)]
    · rw [getElem?_append_right (by omega), show i + 1 - staticTable.length - 1 =
        i - staticTable.length by omega]

theorem tableSize_evict_le (max : ℕ) (t : List (Bytes × Bytes)) : tableSize (evict max t) ≤ max := by
  fun_induction evict max t with
  | case1 t h ih => exact ih
  | case2 t h => omega

variable {c : Coding} {b : UInt8}

theorem Peer.step_literal {p p' : Peer} {kind : LiteralKind} {ref : NameRef} {v : Bytes}
    {fs : HeaderList} (hs : p.step (.literal kind ref v c) = some (p', fs)) :
    Fits v ∧ ∃ n, p.name ref = some n ∧ fs = [⟨n, v⟩] ∧
      p' = if kind = .incremental then p.insert (n, v) else p := by
  rw [Peer.step] at hs
  by_cases hv : Fits v
  · rw [if_pos hv] at hs
    obtain ⟨n, hn, heq⟩ := map_eq_some_iff.mp hs
    cases heq
    exact ⟨hv, n, hn, rfl, rfl⟩
  · rw [if_neg hv] at hs
    cases hs

/-- The table of an encoder stays within its maximum, a 64-bit number. -/
def Peer.Bounded (p : Peer) : Prop := tableSize p.table ≤ p.max ∧ p.max < 2 ^ 64

theorem Peer.Bounded.step {p p' : Peer} {rep : Rep} {fs : HeaderList} (h : p.Bounded)
    (hs : p.step rep = some (p', fs)) : p'.Bounded := by
  cases rep with
  | indexed i =>
    obtain ⟨e, -, he⟩ := map_eq_some_iff.mp hs
    cases he
    exact h
  | literal kind ref value c =>
    obtain ⟨-, n, -, -, rfl⟩ := Peer.step_literal hs
    split_ifs
    · exact ⟨tableSize_evict_le _ _, h.2⟩
    · exact h
  | sizeUpdate n =>
    simp only [Peer.step] at hs
    split_ifs at hs with hn
    cases hs
    exact ⟨tableSize_evict_le _ _, lt_of_le_of_lt hn h.2⟩

theorem Peer.Bounded.index_lt {p : Peer} (h : p.Bounded) {i : ℕ} {e : Bytes × Bytes}
    (he : p.entry i = some e) : i < 2 ^ 64 := by
  have hlen : ∀ t : List (Bytes × Bytes), 32 * t.length ≤ tableSize t := by
    intro t
    induction t with
    | nil => simp [tableSize]
    | cons x t ih => simp only [tableSize, map_cons, sum_cons, length_cons,
        entrySize] at ih ⊢; omega
  have h1 := hlen p.table
  cases i with
  | zero => norm_num
  | succ i =>
    have := (List.getElem?_eq_some_iff.mp he).1
    rw [length_append, length_staticTable] at this
    have := h.1
    have := h.2
    omega

/-! ## One representation -/

theorem readString_coding {r : BitReader} {s bs : Bytes} (hs : Peer.Fits s)
    (hr : r.rest = c.bytes s ++ bs) : readString r = .ok (s, r.advance (c.bytes s).length) := by
  unfold Peer.Fits at hs
  cases c with
  | huffman => exact readString_writeString hs hr
  | raw => exact readString_spec (a := 0) (by decide) (by omega) hr (by simp)

theorem first_indexed (h : b.toNat / 2 ^ 7 = 1) : b &&& 0x80 ≠ 0 := by
  revert h
  exact forall_octet (p := fun b => b.toNat / 2 ^ 7 = 1 → b &&& 0x80 ≠ 0) (by decide +kernel) b

theorem first_sizeUpdate (h : b.toNat / 2 ^ 5 = 1) :
    ¬ b &&& 0x80 ≠ 0 ∧ ¬ b &&& 0xc0 = 0x40 ∧ b &&& 0xe0 = 0x20 := by
  revert h
  exact forall_octet (p := fun b => b.toNat / 2 ^ 5 = 1 →
    ¬ b &&& 0x80 ≠ 0 ∧ ¬ b &&& 0xc0 = 0x40 ∧ b &&& 0xe0 = 0x20) (by decide +kernel) b

def LiteralKind.mark : LiteralKind → ℕ
  | .incremental => 1
  | .withoutIndexing => 0
  | .neverIndexed => 1

theorem LiteralKind.pattern_toNat (kind : LiteralKind) :
    kind.pattern.toNat = 2 ^ kind.width * kind.mark := by
  cases kind <;> rfl

theorem LiteralKind.width_le (kind : LiteralKind) : kind.width ≤ 7 := by
  cases kind <;> simp [LiteralKind.width]

theorem first_literal (kind : LiteralKind) (h : b.toNat / 2 ^ kind.width = kind.mark) :
    ¬ b &&& 0x80 ≠ 0 ∧ (b &&& 0xc0 = 0x40 ↔ kind = .incremental) ∧
      (kind ≠ .incremental → ¬ b &&& 0xe0 = 0x20) := by
  revert h
  exact forall_octet (p := fun b => b.toNat / 2 ^ kind.width = kind.mark →
    ¬ b &&& 0x80 ≠ 0 ∧ (b &&& 0xc0 = 0x40 ↔ kind = .incremental) ∧
      (kind ≠ .incremental → ¬ b &&& 0xe0 = 0x20)) (by cases kind <;> decide +kernel) b

namespace HpackDecoder

variable {p p' : Peer} {r : BitReader} {fs : HeaderList} {bs : Bytes} (out : HeaderList)

variable {d : HpackDecoder} {i : ℕ} {kind : LiteralKind}

theorem decodeField_literal (hr : r.rest = writeInteger i kind.width kind.pattern ++ bs) :
    d.decodeField r out = d.readLiteral r out kind.width (kind == .incremental) := by
  obtain ⟨b, tl, hw, hb⟩ := writeInteger_eq_cons (v := i) kind.pattern_toNat kind.width_le
  rw [hw, cons_append] at hr
  obtain ⟨h1, h2, h3⟩ := first_literal kind hb
  simp only [decodeField, peek_of_rest hr, bind, Except.bind]
  rw [if_neg h1]
  by_cases hk : kind = .incremental
  · rw [if_pos (h2.mpr hk), hk]
    rfl
  · rw [if_neg (mt h2.mp hk), if_neg (h3 hk)]
    cases kind with
    | incremental => exact absurd rfl hk
    | withoutIndexing | neverIndexed => rfl

theorem decodeField_literal_ok {n v : Bytes} {c : Coding} (mid : Bytes) (hi : i < 2 ^ 64) (hv : Peer.Fits v)
    (hr : r.rest = writeInteger i kind.width kind.pattern ++ (mid ++ (c.bytes v ++ bs)))
    (hn : ∀ r', r'.rest = mid ++ (c.bytes v ++ bs) →
      d.readName r' i = .ok (n, r'.advance mid.length)) :
    d.decodeField r out =
      .ok (r.advance ((writeInteger i kind.width kind.pattern).length + (mid.length +
        (c.bytes v).length)), if kind == .incremental then d.addToDynamicTable n v else d,
        out ++ [⟨n, v⟩]) := by
  obtain ⟨b, tl, hw, -⟩ := writeInteger_eq_cons (v := i) kind.pattern_toNat kind.width_le
  have hr1 : r.rest = b :: (tl ++ (mid ++ (c.bytes v ++ bs))) := by
    rw [hr, hw, cons_append]
  have hint := readInteger_writeInteger kind.pattern_toNat kind.width_le hi hr
  set r₂ := r.advance (writeInteger i kind.width kind.pattern).length with hr₂def
  have hr2 : r₂.rest = mid ++ (c.bytes v ++ bs) := by
    rw [hr₂def, rest_advance, hr, drop_left]
  have hr3 : (r₂.advance mid.length).rest = c.bytes v ++ bs := by
    rw [rest_advance, hr2, drop_left]
  rw [decodeField_literal out hr]
  simp only [readLiteral, take_of_rest hr1, bind, Except.bind, hint, hn r₂ hr2,
    readString_coding hv hr3]
  rw [hr₂def, advance_advance, advance_advance]

/-- **One representation** reads back as the field the encoder means, and the tables stay equal. -/
theorem decodeField_rep {rep : Rep} (hp : p.Bounded) (hs : p.step rep = some (p', fs))
    (hr : r.rest = rep.bytes ++ bs) :
    p.asDecoder.decodeField r out = .ok (r.advance rep.bytes.length, p'.asDecoder, out ++ fs) := by
  cases rep with
  | indexed i =>
    obtain ⟨e, he, heq⟩ := map_eq_some_iff.mp hs
    cases heq
    obtain ⟨b, tl, hw, hb⟩ := writeInteger_eq_cons (v := i) (k := 7) (a := 1) (p := 0x80)
      (by decide) le_rfl
    have hi0 : i ≠ 0 := by rintro rfl; cases he
    have hint := readInteger_writeInteger (k := 7) (a := 1) (p := 0x80) (by decide) le_rfl
      (hp.index_lt he) hr
    have hr1 : r.rest = b :: (tl ++ bs) := by rw [hr, Rep.bytes, hw, cons_append]
    simp only [decodeField, peek_of_rest hr1, readIndexed, take_of_rest hr1,
      bind, Except.bind, hint, if_neg hi0, lookupIndexed_asDecoder, he]
    rw [if_pos (first_indexed hb)]
    rfl
  | literal kind ref v c =>
    obtain ⟨hv, n, hn, rfl, rfl⟩ := Peer.step_literal hs
    have hd : (if kind == .incremental then p.asDecoder.addToDynamicTable n v else p.asDecoder) =
        (if kind = .incremental then p.insert (n, v) else p).asDecoder := by
      by_cases hk : kind = .incremental
      · simp [hk, addToDynamicTable_asDecoder]
      · simp [hk]
    cases ref with
    | index i =>
      obtain ⟨e, he, rfl⟩ := map_eq_some_iff.mp hn
      have hi0 : i ≠ 0 := by rintro rfl; cases he
      rw [decodeField_literal_ok out [] (hp.index_lt he) hv
        (show r.rest = _ ++ ([] ++ (c.bytes v ++ bs)) by rw [hr, Rep.bytes, append_assoc]; rfl)
        fun r' _ => by
          simp only [readName, if_neg hi0, lookupIndexed_asDecoder, he, length_nil]; rfl, hd]
      simp [Rep.bytes]
    | literal m cm =>
      simp only [Peer.name] at hn
      split_ifs at hn with hm
      rw [Option.some.injEq] at hn
      subst hn
      rw [decodeField_literal_ok out (i := 0) (cm.bytes m) (by norm_num) hv
        (show r.rest = _ ++ (cm.bytes m ++ (c.bytes v ++ bs)) by
          rw [hr, Rep.bytes, append_assoc, append_assoc])
        fun r' hr' => by rw [readName, if_pos rfl]; exact readString_coding hm hr', hd]
      simp [Rep.bytes]
  | sizeUpdate n =>
    simp only [Peer.step] at hs
    split_ifs at hs with hn
    cases hs
    obtain ⟨b, tl, hw, hb⟩ := writeInteger_eq_cons (v := n) (k := 5) (a := 1) (p := 0x20)
      (by decide) (by norm_num)
    have hint := readInteger_writeInteger (k := 5) (a := 1) (p := 0x20) (by decide) (by norm_num)
      (lt_of_le_of_lt hn hp.2) hr
    have hr1 : r.rest = b :: (tl ++ bs) := by rw [hr, Rep.bytes, hw, cons_append]
    obtain ⟨h1, h2, h3⟩ := first_sizeUpdate hb
    have hmax : ¬ p.asDecoder.maxDynamicTableSize < n := Nat.not_lt.mpr hn
    simp only [decodeField, peek_of_rest hr1, take_of_rest hr1, readSizeUpdate,
      bind, Except.bind, hint, if_neg hmax]
    rw [if_neg h1, if_neg h2, if_pos h3, append_nil]
    exact congrArg (fun d => Except.ok (r.advance (writeInteger n 5 0x20).length, d, out))
      (evictToFit_eq p.table n)

/-! ## Blocks -/

theorem decodeFrom_block (reps : List Rep) : ∀ {p p' : Peer} {r : BitReader} {fs : HeaderList}
    (out : HeaderList), p.Bounded → p.block reps = some (p', fs) → r.rest = blockBytes reps →
    p.asDecoder.decodeFrom r out = ⟨none, p'.asDecoder, out ++ fs⟩ ∧ p'.Bounded := by
  induction reps with
  | nil =>
    intro p p' r fs out hp hb hr
    cases hb
    exact ⟨by rw [decodeFrom_nil hr, append_nil], hp⟩
  | cons rep reps ih =>
    intro p p' r fs out hp hb hr
    obtain ⟨⟨p₁, f⟩, h1, hb⟩ := bind_eq_some_iff.mp hb
    obtain ⟨⟨p₂, fs₂⟩, h2, hb⟩ := bind_eq_some_iff.mp hb
    cases hb
    have hr' : r.rest = rep.bytes ++ blockBytes reps := by
      rw [hr, blockBytes, flatMap_cons]; rfl
    have hstep := decodeField_rep out hp h1 hr'
    have hcons : ∃ b tl, r.rest = b :: tl := by
      cases hrest : r.rest with
      | nil =>
        have hend := length_rest r
        rw [hrest] at hend
        have := decodeField_ahead hstep
        simp at hend
        omega
      | cons b tl => exact ⟨b, tl, rfl⟩
    obtain ⟨b, tl, hcons⟩ := hcons
    obtain ⟨hdec, hp'⟩ := ih (out ++ f) (hp.step h1) h2
      (r := r.advance rep.bytes.length) (by rw [rest_advance, hr', drop_left])
    exact ⟨by rw [decodeFrom_step hcons hstep, hdec, append_assoc], hp'⟩

theorem decodeBlocks_asDecoder (bs : List (List Rep)) : ∀ {p : Peer}
    {res : List (Peer × HeaderList)}, p.Bounded → p.blocks bs = some res →
    decodeBlocks p.asDecoder (bs.map blockBytes) =
      res.map fun q => ⟨none, q.1.asDecoder, q.2⟩ := by
  induction bs with
  | nil => intro p res _ h; cases h; rfl
  | cons reps bs ih =>
    intro p res hp h
    obtain ⟨⟨p₁, fs⟩, h1, h⟩ := bind_eq_some_iff.mp h
    obtain ⟨rest, h2, h⟩ := bind_eq_some_iff.mp h
    cases h
    obtain ⟨hdec, hp1⟩ := decodeFrom_block reps (r := { data := blockBytes reps }) [] hp h1
      rfl
    rw [map_cons, decodeBlocks, decode, hdec, ih hp1 h2]
    rfl

/-- **The decoder follows the encoder.** Whatever blocks a reference encoder emits, every call of `decode` returns the
fields encoded and leaves the decoder's table equal to the encoder's. -/
theorem decodeBlocks_eq (max : ℕ) (hmax : max < 2 ^ 64) (bs : List (List Rep))
    (res : List (Peer × HeaderList)) (h : ({ max := max } : Peer).blocks bs = some res) :
    decodeBlocks { maxDynamicTableSize := max } (bs.map blockBytes) =
      res.map fun q => ⟨none, ⟨q.1.max, tableSize q.1.table, q.1.table⟩, q.2⟩ :=
  decodeBlocks_asDecoder bs (p := { max := max }) ⟨Nat.zero_le _, hmax⟩ h

/-- Two blocks: an insertion that evicts the entry naming it, then a reference to what is left. -/
theorem decodeBlocks_eq_evicting :
    decodeBlocks { maxDynamicTableSize := 70 }
      ([[.literal .incremental (.literal (ascii "ab") .raw) (ascii "c") .huffman],
        [.literal .incremental (.index 62) (ascii "def") .raw, .indexed 62, .sizeUpdate 36]].map
          blockBytes) =
      [⟨none, ⟨70, 35, [(ascii "ab", ascii "c")]⟩, [⟨ascii "ab", ascii "c"⟩]⟩,
        ⟨none, ⟨36, 0, []⟩, [⟨ascii "ab", ascii "def"⟩, ⟨ascii "ab", ascii "def"⟩]⟩] :=
  decodeBlocks_eq 70 (by norm_num) _
    [({ table := [(ascii "ab", ascii "c")], max := 70 }, [⟨ascii "ab", ascii "c"⟩]),
      ({ table := [], max := 36 }, [⟨ascii "ab", ascii "def"⟩, ⟨ascii "ab", ascii "def"⟩])]
    (by decide +kernel)

end HpackDecoder

end Nhttp.Http2
