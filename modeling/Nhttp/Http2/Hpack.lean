import Nhttp.Http2.Huffman

/-!
# HPACK: the decoder and the encoder

* `BitReader`: the reader over one header block. An access outside the block is `Fail.fault`, the
  decoder's own `return false` is `Fail.reject`.
* `HpackDecoder`: the decoder's tables and its methods.
* `writeInteger`, `writeString`, `encode` follow `hpack_encoder`, which keeps no state.

An integer read from the block is reduced modulo `2 ^ 64` wherever the code computes it.
-/

namespace Nhttp.Http2

open Octets

structure HeaderField where
  name : Bytes
  value : Bytes
deriving DecidableEq, Repr

abbrev HeaderList := List HeaderField

/-- Why a reading step stops. -/
inductive Fail where
  | reject
  | fault
deriving DecidableEq, Repr

/-! ## The reader -/

/-- `bit_reader`: a block and a position in it. -/
structure BitReader where
  data : Bytes
  pos : ℕ := 0

namespace BitReader

def atEnd (r : BitReader) : Bool := decide (r.data.length ≤ r.pos)

/-- `data[i]`. -/
def byteAt (r : BitReader) (i : ℕ) : Except Fail UInt8 :=
  match r.data[i]? with
  | some b => .ok b
  | none => .error .fault

/-- Move the position. -/
def advance (r : BitReader) (n : ℕ) : BitReader := { r with pos := r.pos + n }

def peek (r : BitReader) : Except Fail UInt8 := r.byteAt r.pos

def take (r : BitReader) : Except Fail (UInt8 × BitReader) := do
  let b ← r.byteAt r.pos
  return (b, r.advance 1)

/-- `data[pos - 1]`, the byte just taken. -/
def last (r : BitReader) : Except Fail UInt8 :=
  match r.pos with
  | 0 => .error .fault
  | p + 1 => r.byteAt p

def rest (r : BitReader) : Bytes := r.data.drop r.pos

/-- `r'` reads the same block, at `r`'s position or later. -/
def Ahead (r r' : BitReader) : Prop := r'.data = r.data ∧ r.pos ≤ r'.pos

theorem Ahead.trans {r₁ r₂ r₃ : BitReader} (h : r₁.Ahead r₂) (h' : r₂.Ahead r₃) : r₁.Ahead r₃ :=
  ⟨h'.1.trans h.1, h.2.trans h'.2⟩

theorem take_ok {r r' : BitReader} {b : UInt8} (h : r.take = .ok (b, r')) :
    r' = r.advance 1 ∧ r.data[r.pos]? = some b := by
  unfold take byteAt at h
  cases hb : r.data[r.pos]? with
  | none => rw [hb] at h; cases h
  | some c => rw [hb] at h; cases h; exact ⟨rfl, rfl⟩

theorem take_ahead {r r' : BitReader} {b : UInt8} (h : r.take = .ok (b, r')) :
    r.Ahead r' ∧ r.pos < r'.pos ∧ r.pos < r.data.length := by
  obtain ⟨rfl, hb⟩ := take_ok h
  exact ⟨⟨rfl, Nat.le_succ _⟩, Nat.lt_succ_self _, (List.getElem?_eq_some_iff.mp hb).1⟩

end BitReader

/-! ## Integers and strings -/

/-- The continuation bytes of an integer: `value` and the shift `m` so far. -/
def readIntegerTail (r : BitReader) (value m : ℕ) : Except Fail (ℕ × BitReader) :=
  if r.atEnd then .error .reject
  else match h : r.take with
    | .error e => .error e
    | .ok (b, r') =>
      let value := (value + (b &&& 0x7f).toNat <<< m % 2 ^ 64) % 2 ^ 64
      if b &&& 0x80 = 0 then .ok (value, r')
      -- an absurd or overflowing integer is rejected rather than wrapped
      else if 63 < m + 7 then .error .reject
      else readIntegerTail r' value (m + 7)
termination_by r.data.length - r.pos
decreasing_by
  have := BitReader.take_ahead h
  rw [this.1.1]
  omega

/-- `read_integer`, after its first byte has been taken. -/
def readInteger (r : BitReader) (prefixBits : ℕ) : Except Fail (ℕ × BitReader) := do
  let first ← r.last
  let mask := 1 <<< prefixBits - 1
  let value := first.toNat &&& mask
  if value < mask then .ok (value, r) else readIntegerTail r value 0

def readString (r : BitReader) : Except Fail (Bytes × BitReader) :=
  if r.atEnd then .error .reject
  else do
    let (first, r) ← r.take
    let (length, r) ← readInteger r 7
    if r.data.length - r.pos < length then .error .reject
    else if first &&& 0x80 ≠ 0 then
      match huffmanDecode (r.rest.take length) [] with
      | none => .error .reject
      | some out => .ok (out, r.advance length)
    else .ok (r.rest.take length, r.advance length)

theorem bind_eq_ok {ε α β : Type} {x : Except ε α} {f : α → Except ε β} {b : β} :
    (x >>= f) = .ok b ↔ ∃ a, x = .ok a ∧ f a = .ok b := by
  cases x with
  | error e =>
    constructor
    · intro h; cases h
    · rintro ⟨_, h, -⟩; cases h
  | ok a =>
    constructor
    · intro h; exact ⟨a, rfl, h⟩
    · rintro ⟨_, h, h'⟩; cases h; exact h'

theorem readIntegerTail_ahead (r : BitReader) (value m : ℕ) :
    ∀ {v : ℕ} {r' : BitReader}, readIntegerTail r value m = .ok (v, r') → r.Ahead r' := by
  fun_induction readIntegerTail r value m with
  | case1 | case2 | case4 => intro v r' h; cases h
  | case3 r value m h1 b r₁ h2 h3 =>
    intro v r' h
    cases h
    exact (BitReader.take_ahead h2).1
  | case5 r value m h1 b r₁ h2 value' h3 h4 =>
    rename_i ih
    intro v r' h
    exact (BitReader.take_ahead h2).1.trans (ih h)

theorem readInteger_ahead {r r' : BitReader} {k v : ℕ} (h : readInteger r k = .ok (v, r')) :
    r.Ahead r' := by
  obtain ⟨b, -, h⟩ := bind_eq_ok.mp h
  dsimp only at h
  split_ifs at h
  · cases h; exact ⟨rfl, le_rfl⟩
  · exact readIntegerTail_ahead _ _ _ h

theorem readString_ahead {r r' : BitReader} {s : Bytes} (h : readString r = .ok (s, r')) :
    r.Ahead r' := by
  unfold readString at h
  split at h
  · cases h
  obtain ⟨⟨b, r₁⟩, ht, h⟩ := bind_eq_ok.mp h
  obtain ⟨⟨n, r₂⟩, hi, h⟩ := bind_eq_ok.mp h
  have h3 : r.Ahead (r₂.advance n) := ((BitReader.take_ahead ht).1.trans (readInteger_ahead hi)).trans
    ⟨rfl, Nat.le_add_right _ _⟩
  dsimp only at h
  split at h
  · cases h
  split at h
  · split at h
    · cases h
    · cases h; exact h3
  · cases h; exact h3

/-! ## The tables -/

/-- `hpack_decoder`: the front of the dynamic table is the entry added last. -/
structure HpackDecoder where
  maxDynamicTableSize : ℕ := 4096
  dynamicTableSize : ℕ := 0
  dynamicTable : List (Bytes × Bytes) := []
deriving DecidableEq, Repr

/-- The size of a table entry (RFC 7541 §4.1). -/
def entrySize (e : Bytes × Bytes) : ℕ := e.1.length + e.2.length + 32

namespace HpackDecoder

def setMaxDynamicTableSize (d : HpackDecoder) (maxSize : ℕ) : HpackDecoder :=
  { d with maxDynamicTableSize := maxSize }

def lookupIndexed (d : HpackDecoder) (index : ℕ) : Option (Bytes × Bytes) :=
  if index = 0 then none
  else if index ≤ staticTable.length then staticTable[index - 1]?
  else d.dynamicTable[index - staticTable.length - 1]?

def evictToFit (d : HpackDecoder) : HpackDecoder :=
  if d.maxDynamicTableSize < d.dynamicTableSize then
    match _h : d.dynamicTable.getLast? with
    | none => d
    | some back => evictToFit
        { d with
          dynamicTableSize := d.dynamicTableSize - entrySize back
          dynamicTable := d.dynamicTable.dropLast }
  else d
termination_by d.dynamicTable.length
decreasing_by
  have : d.dynamicTable ≠ [] := by rintro h'; rw [h'] at _h; cases _h
  simpa using List.length_pos_iff.mpr this

def addToDynamicTable (d : HpackDecoder) (name value : Bytes) : HpackDecoder :=
  evictToFit
    { d with
      dynamicTable := (name, value) :: d.dynamicTable
      dynamicTableSize := d.dynamicTableSize + entrySize (name, value) }

/-- A dynamic table size update may not exceed the present bound. -/
def readSizeUpdate (d : HpackDecoder) (r : BitReader) : Except Fail (BitReader × HpackDecoder) := do
  let (newSize, r) ← readInteger r 5
  if d.maxDynamicTableSize < newSize then .error .reject
  else .ok (r, evictToFit { d with maxDynamicTableSize := newSize })

/-! ## Header blocks -/

/-- What one representation leaves behind: the reader, the tables and the fields so far. -/
abbrev Progress := BitReader × HpackDecoder × HeaderList

def readIndexed (d : HpackDecoder) (r : BitReader) (out : HeaderList) : Except Fail Progress := do
  let (_, r) ← r.take
  let (index, r) ← readInteger r 7
  if index = 0 then .error .reject
  else match d.lookupIndexed index with
    | none => .error .reject
    | some e => .ok (r, d, out ++ [⟨e.1, e.2⟩])

/-- The name of a literal field: written out, or taken from a table. -/
def readName (d : HpackDecoder) (r : BitReader) (nameIndex : ℕ) : Except Fail (Bytes × BitReader) :=
  if nameIndex = 0 then readString r
  else match d.lookupIndexed nameIndex with
    | none => .error .reject
    | some e => .ok (e.1, r)

def readLiteral (d : HpackDecoder) (r : BitReader) (out : HeaderList) (nameIndexPrefixBits : ℕ)
    (addToTable : Bool) : Except Fail Progress := do
  let (_, r) ← r.take
  let (nameIndex, r) ← readInteger r nameIndexPrefixBits
  let (name, r) ← readName d r nameIndex
  let (value, r) ← readString r
  .ok (r, if addToTable then d.addToDynamicTable name value else d, out ++ [⟨name, value⟩])

/-- One turn of the loop of `hpack_decoder::decode`. -/
def decodeField (d : HpackDecoder) (r : BitReader) (out : HeaderList) : Except Fail Progress := do
  let first ← r.peek
  if first &&& 0x80 ≠ 0 then d.readIndexed r out
  else if first &&& 0xc0 = 0x40 then d.readLiteral r out 6 true
  else if first &&& 0xe0 = 0x20 then do
    let (_, r) ← r.take
    let (r, d) ← d.readSizeUpdate r
    .ok (r, d, out)
  -- without indexing and never indexed: the same parse
  else d.readLiteral r out 4 false

theorem readName_ahead {d : HpackDecoder} {r r' : BitReader} {i : ℕ} {s : Bytes}
    (h : d.readName r i = .ok (s, r')) : r.Ahead r' := by
  unfold readName at h
  split at h
  · exact readString_ahead h
  · split at h
    · cases h
    · cases h; exact ⟨rfl, le_rfl⟩

theorem decodeField_ahead {d d' : HpackDecoder} {r r' : BitReader} {out out' : HeaderList}
    (h : d.decodeField r out = .ok (r', d', out')) :
    r'.data = r.data ∧ r.pos < r'.pos ∧ r.pos < r.data.length := by
  have key : ∀ {b : UInt8} {r₁ : BitReader}, r.take = .ok (b, r₁) → r₁.Ahead r' →
      r'.data = r.data ∧ r.pos < r'.pos ∧ r.pos < r.data.length := by
    intro b r₁ ht ha
    obtain ⟨h1, h2, h3⟩ := BitReader.take_ahead ht
    exact ⟨(h1.trans ha).1, lt_of_lt_of_le h2 ha.2, h3⟩
  have hlit : ∀ {k : ℕ} {a : Bool}, d.readLiteral r out k a = .ok (r', d', out') →
      r'.data = r.data ∧ r.pos < r'.pos ∧ r.pos < r.data.length := by
    intro k a h
    obtain ⟨⟨b, r₁⟩, ht, h⟩ := bind_eq_ok.mp h
    obtain ⟨⟨i, r₂⟩, hi, h⟩ := bind_eq_ok.mp h
    obtain ⟨⟨n, r₃⟩, hn, h⟩ := bind_eq_ok.mp h
    obtain ⟨⟨v, r₄⟩, hv, h⟩ := bind_eq_ok.mp h
    cases h
    exact key ht ((readInteger_ahead hi).trans ((readName_ahead hn).trans (readString_ahead hv)))
  obtain ⟨first, -, h⟩ := bind_eq_ok.mp h
  split at h
  · obtain ⟨⟨b, r₁⟩, ht, h⟩ := bind_eq_ok.mp h
    obtain ⟨⟨i, r₂⟩, hi, h⟩ := bind_eq_ok.mp h
    dsimp only at h
    split at h
    · cases h
    split at h
    · cases h
    · cases h; exact key ht (readInteger_ahead hi)
  split at h
  · exact hlit h
  split at h
  · obtain ⟨⟨b, r₁⟩, ht, h⟩ := bind_eq_ok.mp h
    obtain ⟨⟨r₂, d₂⟩, hs, h⟩ := bind_eq_ok.mp h
    cases h
    obtain ⟨⟨n, r₃⟩, hi, hs⟩ := bind_eq_ok.mp hs
    dsimp only at hs
    split at hs
    · cases hs
    · cases hs; exact key ht (readInteger_ahead hi)
  · exact hlit h

/-- What a call of `decode` returns and leaves, also when it fails. -/
structure Decoded where
  failed : Option Fail
  decoder : HpackDecoder
  out : HeaderList
deriving DecidableEq, Repr

/-- The loop of `hpack_decoder::decode`. -/
def decodeFrom (d : HpackDecoder) (r : BitReader) (out : HeaderList) : Decoded :=
  if r.atEnd then ⟨none, d, out⟩
  else match _h : d.decodeField r out with
    | .error e => ⟨some e, d, out⟩
    | .ok (r', d', out') => decodeFrom d' r' out'
termination_by r.data.length - r.pos
decreasing_by
  have := decodeField_ahead _h
  rw [this.1]
  omega

def decode (d : HpackDecoder) (data : Bytes) (out : HeaderList) : Decoded :=
  d.decodeFrom { data := data } out

end HpackDecoder

/-! ## The encoder -/

def writeIntegerTail (value : ℕ) : Bytes :=
  if 128 ≤ value then UInt8.ofNat ((value % 128) ||| 0x80) :: writeIntegerTail (value / 128)
  else [UInt8.ofNat value]
termination_by value

/-- The bytes `write_integer` appends. -/
def writeInteger (value prefixBits : ℕ) (prefixPattern : UInt8) : Bytes :=
  let maxPrefix := 1 <<< prefixBits - 1
  if value < maxPrefix then [prefixPattern ||| UInt8.ofNat value]
  else (prefixPattern ||| UInt8.ofNat maxPrefix) :: writeIntegerTail (value - maxPrefix)

/-- The bytes `write_string` appends: always Huffman-coded. -/
def writeString (value : Bytes) : Bytes :=
  writeInteger (huffmanEncode value).length 7 0x80 ++ huffmanEncode value

/-- What `hpack_encoder::encode` appends for a field: a literal without indexing and with a literal name. -/
def encodeField (h : HeaderField) : Bytes := 0x00 :: (writeString h.name ++ writeString h.value)

/-- The bytes `hpack_encoder::encode` appends. -/
def encode (headers : HeaderList) : Bytes := headers.flatMap encodeField

end Nhttp.Http2
