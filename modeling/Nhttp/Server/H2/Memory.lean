import Nhttp.Server.H2.Handlers

/-!
# The octets that the HTTP/2 parsers touch

The functions of `hpack.cpp`, `frame.cpp` and the handlers once more, on pointers: an octet or a range outside the array,
an entry outside its table and a difference below zero are a `fault`.

* **`parsers_inside`**: on all octets, flags and tables the checked functions do what the others do, and none faults.
-/

open List

namespace Nhttp.Http2

open Octets

namespace Checked

/-- The `n` octets at `data + offset`. -/
def range (data : Bytes) (offset n : ℕ) : Except Fail Bytes :=
  if offset + n ≤ data.length then .ok ((data.drop offset).take n) else .error .fault

/-- `a - b`, which must not wrap. -/
def sub (a b : ℕ) : Except Fail ℕ := if b ≤ a then .ok (a - b) else .error .fault

/-- `table[i]`. -/
def entry (table : List (Bytes × Bytes)) (i : ℕ) : Except Fail (Option (Bytes × Bytes)) :=
  match table[i]? with
  | some e => .ok (some e)
  | none => .error .fault

theorem range_eq {data : Bytes} {offset n : ℕ} (h : offset + n ≤ data.length) :
    range data offset n = .ok ((data.drop offset).take n) :=
  if_pos h

theorem sub_eq {a b : ℕ} (h : b ≤ a) : sub a b = .ok (a - b) := if_pos h

theorem entry_eq {table : List (Bytes × Bytes)} {i : ℕ} (h : i < table.length) : entry table i = .ok table[i]? := by
  unfold entry
  rw [getElem?_eq_getElem h]

/-! ## Header blocks -/

def readString (r : BitReader) : Except Fail (Bytes × BitReader) :=
  if r.atEnd then .error .reject
  else do
    let (first, r) ← r.take
    let (length, r) ← readInteger r 7
    let left ← sub r.data.length r.pos
    if left < length then .error .reject
    else do
      let raw ← range r.data r.pos length
      if first &&& 0x80 ≠ 0 then
        match huffmanDecode raw [] with
        | none => .error .reject
        | some out => .ok (out, r.advance length)
      else .ok (raw, r.advance length)

def lookupIndexed (d : HpackDecoder) (index : ℕ) : Except Fail (Option (Bytes × Bytes)) :=
  if index = 0 then .ok none
  else if index ≤ staticTable.length then entry staticTable (index - 1)
  else do
    let dynIndex ← sub index (staticTable.length + 1)
    if d.dynamicTable.length ≤ dynIndex then .ok none else entry d.dynamicTable dynIndex

variable {r r' : BitReader} {d : HpackDecoder}

theorem bind_ne_fault {α β : Type} {x : Except Fail α} {f : α → Except Fail β} (hx : x ≠ .error .fault)
    (hf : ∀ a, x = .ok a → f a ≠ .error .fault) : (x >>= f) ≠ .error .fault := by
  cases x with
  | error e => exact fun h => hx (by cases h; rfl)
  | ok a => exact hf a rfl

/-- A byte is there to be taken. -/
theorem exists_take (h : ¬r.atEnd = true) : ∃ b, r.take = .ok (b, r.advance 1) ∧ r.peek = .ok b := by
  have hlt : r.pos < r.data.length := by simpa [BitReader.atEnd] using h
  have hb : r.byteAt r.pos = .ok r.data[r.pos] := by
    unfold BitReader.byteAt
    rw [getElem?_eq_getElem hlt]
  refine ⟨r.data[r.pos], ?_, hb⟩
  unfold BitReader.take
  rw [hb]
  rfl

theorem take_inside {b : UInt8} (h : r.take = .ok (b, r')) : r'.pos ≤ r'.data.length := by
  obtain ⟨rfl, hb⟩ := BitReader.take_ok h
  exact (List.getElem?_eq_some_iff.mp hb).1

theorem readIntegerTail_inside (r : BitReader) (value m : ℕ) :
    readIntegerTail r value m ≠ .error .fault ∧
      ∀ {v r'}, readIntegerTail r value m = .ok (v, r') → r'.pos ≤ r'.data.length := by
  fun_induction readIntegerTail r value m with
  | case1 | case4 => exact ⟨fun h => (by cases h), fun h => (by cases h)⟩
  | case2 r value m hend e he =>
    obtain ⟨b, hb, -⟩ := exists_take hend
    cases he.symm.trans hb
  | case3 r value m hend b r₁ ht =>
    refine ⟨fun h => (by cases h), fun h => ?_⟩
    cases h
    exact take_inside ht
  | case5 r value m hend b r₁ ht value' h0 h63 ih => exact ih

/-- **`read_integer`** reads the byte before the reader, which has been taken, and then only what is left. -/
theorem readInteger_inside {b : UInt8} (k : ℕ) (h : r.take = .ok (b, r')) :
    readInteger r' k ≠ .error .fault ∧ ∀ {v r₁}, readInteger r' k = .ok (v, r₁) → r₁.pos ≤ r₁.data.length := by
  have hin := take_inside h
  obtain ⟨rfl, hb⟩ := BitReader.take_ok h
  have hl : (r.advance 1).last = .ok b := by simp [BitReader.last, BitReader.advance, BitReader.byteAt, hb]
  have he : readInteger (r.advance 1) k =
      if b.toNat &&& (1 <<< k - 1) < 1 <<< k - 1 then .ok (b.toNat &&& (1 <<< k - 1), r.advance 1)
      else readIntegerTail (r.advance 1) (b.toNat &&& (1 <<< k - 1)) 0 := by
    unfold readInteger
    rw [hl]
    rfl
  rw [he]
  split_ifs
  · refine ⟨fun h => (by cases h), fun h => ?_⟩
    cases h
    exact hin
  · exact readIntegerTail_inside _ _ _

theorem readString_eq (r : BitReader) : readString r = Http2.readString r := by
  unfold readString Http2.readString
  split
  · rfl
  cases ht : r.take with
  | error e => rfl
  | ok p =>
    obtain ⟨first, r₁⟩ := p
    change (readInteger r₁ 7 >>= _) = (readInteger r₁ 7 >>= _)
    cases hi : readInteger r₁ 7 with
    | error e => rfl
    | ok p =>
      obtain ⟨length, r₂⟩ := p
      have hin := (readInteger_inside 7 ht).2 hi
      change (sub r₂.data.length r₂.pos >>= _) = _
      rw [sub_eq hin]
      change (if _ < length then _ else _) = if _ < length then _ else _
      split_ifs with hlen
      · rfl
      all_goals
        rw [range_eq (by omega)]
        rfl

theorem readString_ne_fault (r : BitReader) : Http2.readString r ≠ .error .fault := by
  unfold Http2.readString
  split_ifs with hend
  · exact fun h => by cases h
  obtain ⟨b, ht, -⟩ := exists_take hend
  refine bind_ne_fault (by rw [ht]; exact fun h => by cases h) fun p hp => ?_
  refine bind_ne_fault (readInteger_inside 7 hp).1 fun q hq => ?_
  dsimp only
  split_ifs
  · exact fun h => by cases h
  · split <;> exact fun h => by cases h
  · exact fun h => by cases h

theorem lookupIndexed_eq (d : HpackDecoder) (index : ℕ) : lookupIndexed d index = .ok (d.lookupIndexed index) := by
  unfold lookupIndexed HpackDecoder.lookupIndexed
  split_ifs with h0 hs
  · rfl
  · exact entry_eq (by omega)
  · rw [sub_eq (by omega)]
    change (if _ ≤ _ then _ else _) = _
    rw [← Nat.sub_sub]
    split_ifs with hd
    · rw [getElem?_eq_none hd]
    · exact entry_eq (Nat.lt_of_not_le hd)

theorem decodeField_ne_fault (d : HpackDecoder) (out : HeaderList) (hend : ¬r.atEnd = true) :
    d.decodeField r out ≠ .error .fault := by
  obtain ⟨b, ht, hp⟩ := exists_take hend
  have htake : r.take ≠ .error .fault := by
    rw [ht]
    exact fun h => by cases h
  have hlit : ∀ k a, d.readLiteral r out k a ≠ .error .fault := by
    intro k a
    refine bind_ne_fault htake fun p hp => bind_ne_fault (readInteger_inside k hp).1 fun q _ => ?_
    refine bind_ne_fault ?_ fun _ _ => bind_ne_fault (readString_ne_fault _) fun _ _ h => by cases h
    unfold HpackDecoder.readName
    split_ifs
    · exact readString_ne_fault _
    · split <;> exact fun h => by cases h
  refine bind_ne_fault (by rw [hp]; exact fun h => by cases h) fun first _ => ?_
  split_ifs
  · refine bind_ne_fault htake fun p hp => bind_ne_fault (readInteger_inside 7 hp).1 fun q _ => ?_
    dsimp only
    split_ifs
    · exact fun h => by cases h
    · split <;> exact fun h => by cases h
  · exact hlit 6 true
  · refine bind_ne_fault htake fun p hp => bind_ne_fault ?_ fun _ _ h => by cases h
    refine bind_ne_fault (readInteger_inside 5 hp).1 fun q _ => ?_
    dsimp only
    split_ifs <;> exact fun h => by cases h
  · exact hlit 4 false

/-- **`decode`** takes no octet outside its block. -/
theorem decodeFrom_ne_fault (d : HpackDecoder) (r : BitReader) (out : HeaderList) :
    (d.decodeFrom r out).failed ≠ some .fault := by
  fun_induction HpackDecoder.decodeFrom d r out with
  | case1 => exact fun h => by cases h
  | case2 d r out hend e he => exact fun h => decodeField_ne_fault d out hend (Option.some.inj h ▸ he)
  | case3 d r out hend r' d' out' he ih => exact ih

/-! ## Frames -/

def settingsFrom (data : Bytes) (i : ℕ) (out : List SettingsParam) : Except Fail (List SettingsParam) :=
  if i < data.length then do
    let id ← range data i 2
    let value ← range data (i + 2) 4
    settingsFrom data (i + 6) (out ++ [⟨readNumber id, readNumber value⟩])
  else .ok out
termination_by data.length - i

def parseSettingsPayload (data : Bytes) : Except Fail (Option (List SettingsParam)) :=
  if data.length % 6 ≠ 0 then .ok none else some <$> settingsFrom data 0 []

/-- A payload of one number: `parse_window_update_payload`, `parse_rst_stream_payload`. -/
def parseNumber (data : Bytes) (bits : ℕ) : Except Fail (Option ℕ) :=
  if data.length ≠ 4 then .ok none
  else do
    let bs ← range data 0 4
    .ok (some (readNumber bs % 2 ^ bits))

def parseWindowUpdatePayload (data : Bytes) : Except Fail (Option ℕ) := parseNumber data 31

def parseRstStreamPayload (data : Bytes) : Except Fail (Option ℕ) := parseNumber data 32

def stripPadding (payload : Bytes) (padded : Bool) : Except Fail (Option (ℕ × ℕ)) :=
  if padded then
    if payload.length < 1 then .ok none
    else do
      let pad ← range payload 0 1
      let padLength := readNumber pad
      if payload.length < padLength + 1 then .ok none
      else do
        let left ← sub payload.length 1
        let contentLen ← sub left padLength
        .ok (some (1, contentLen))
  else .ok (some (0, payload.length))

theorem readSettings_of_le {xs : Bytes} (h : 6 ≤ xs.length) :
    readSettings xs = ⟨readNumber (xs.take 2), readNumber ((xs.drop 2).take 4)⟩ :: readSettings (xs.drop 6) := by
  rcases xs with _ | ⟨a, _ | ⟨b, _ | ⟨c, _ | ⟨d, _ | ⟨e, _ | ⟨f, rest⟩⟩⟩⟩⟩⟩
  case cons.cons.cons.cons.cons.cons => rfl
  all_goals simp at h

theorem settingsFrom_eq (data : Bytes) (i : ℕ) (out : List SettingsParam) (h6 : data.length % 6 = 0) (hi : i % 6 = 0) :
    settingsFrom data i out = .ok (out ++ readSettings (data.drop i)) := by
  induction hn : data.length - i using Nat.strong_induction_on generalizing i out with
  | _ n ih =>
    subst hn
    rw [settingsFrom]
    split_ifs with hlt
    · rw [range_eq (by omega), range_eq (by omega)]
      change settingsFrom data (i + 6) _ = _
      have hle : 6 ≤ (data.drop i).length := by
        rw [length_drop]
        omega
      rw [ih _ (by omega) (i + 6) _ (by omega) rfl, readSettings_of_le hle, drop_drop, drop_drop,
        append_assoc]
      rfl
    · rw [drop_eq_nil_of_le (Nat.le_of_not_lt hlt)]
      simp [readSettings]

theorem parseSettingsPayload_eq (data : Bytes) :
    parseSettingsPayload data = .ok (Http2.parseSettingsPayload data) := by
  unfold parseSettingsPayload Http2.parseSettingsPayload
  split_ifs with h6
  · rfl
  · rw [settingsFrom_eq data 0 [] (not_not.mp h6) rfl]
    rfl

theorem parseNumber_eq (data : Bytes) (bits : ℕ) :
    parseNumber data bits = .ok (if data.length ≠ 4 then none else some (readNumber data % 2 ^ bits)) := by
  unfold parseNumber
  split_ifs with h4
  · rfl
  · rw [range_eq (by omega), drop_zero, take_of_length_le (by omega)]
    rfl

theorem stripPadding_eq (payload : Bytes) (padded : Bool) :
    ∃ c, stripPadding payload padded = .ok c ∧ (∀ p ∈ c, p.1 + p.2 ≤ payload.length) ∧
      Http2.stripPadding payload padded = c.map fun p => (payload.drop p.1).take p.2 := by
  unfold stripPadding Http2.stripPadding
  cases padded with
  | false => exact ⟨_, rfl, by simp, by simp⟩
  | true =>
    cases payload with
    | nil => exact ⟨_, rfl, by simp, rfl⟩
    | cons pad content =>
      have hr : range (pad :: content) 0 1 = .ok [pad] := range_eq (by simp)
      have hn : readNumber [pad] = pad.toNat := by simp [readNumber]
      rw [if_pos rfl, if_neg (by simp), hr]
      dsimp only [bind, Except.bind]
      rw [hn, length_cons]
      by_cases hp : content.length < pad.toNat
      · rw [if_pos (by omega)]
        exact ⟨none, rfl, by simp, by simp [hp]⟩
      · rw [if_neg (by omega), sub_eq (by omega), Nat.add_sub_cancel]
        dsimp only
        rw [sub_eq (by omega)]
        refine ⟨some (1, content.length - pad.toNat), rfl, fun p hpm => ?_, by simp [hp]⟩
        cases hpm
        omega

end Checked

end Nhttp.Http2

namespace Nhttp.Server.H2

open Octets Http2 Http2.Checked

namespace Checked

/-- What `handle_headers` copies. -/
def headersFragment (fh : FrameHeader) (payload : Bytes) : Except Fail (Option Bytes) := do
  match ← stripPadding payload (FrameFlags.has fh.flags FrameFlags.padded) with
  | none => .ok none
  | some (contentOffset, contentLen) =>
    if FrameFlags.has fh.flags FrameFlags.priority then
      if contentLen < 5 then .ok none
      else do
        let contentLen ← sub contentLen 5
        some <$> range payload (contentOffset + 5) contentLen
    else some <$> range payload contentOffset contentLen

/-- What `handle_continuation` copies. -/
def continuationFragment (payload : Bytes) : Except Fail Bytes := range payload 0 payload.length

/-- What `handle_data` copies, if it is not too much. -/
def dataContent (fh : FrameHeader) (payload : Bytes) : Except Fail (Option Bytes) := do
  match ← stripPadding payload (FrameFlags.has fh.flags FrameFlags.padded) with
  | none => .ok none
  | some (contentOffset, contentLen) => some <$> range payload contentOffset contentLen

variable (fh : FrameHeader) (payload : Bytes)

theorem headersFragment_eq : headersFragment fh payload = .ok (H2.headersFragment fh payload) := by
  obtain ⟨c, hc, hin, he⟩ := stripPadding_eq payload (FrameFlags.has fh.flags FrameFlags.padded)
  unfold headersFragment H2.headersFragment
  rw [hc, he]
  cases c with
  | none => rfl
  | some p =>
    have hle := hin p rfl
    dsimp only [bind, Except.bind, Option.map_some]
    rw [length_take, length_drop, Nat.min_eq_left (by omega)]
    split_ifs with hp h5
    · rfl
    · rw [sub_eq (by omega)]
      dsimp only
      rw [range_eq (by omega), drop_take, drop_drop]
      rfl
    · rw [range_eq hle]
      rfl

theorem dataContent_eq :
    dataContent fh payload = .ok (Http2.stripPadding payload (FrameFlags.has fh.flags FrameFlags.padded)) := by
  obtain ⟨c, hc, hin, he⟩ := stripPadding_eq payload (FrameFlags.has fh.flags FrameFlags.padded)
  unfold dataContent
  rw [hc, he]
  cases c with
  | none => rfl
  | some p =>
    dsimp only [bind, Except.bind]
    rw [range_eq (hin p rfl)]
    rfl

end Checked

/-- **The parsers read inside their input**, whatever the octets, the flags and the tables, and find on pointers what
they find on lists. -/
theorem parsers_inside (d : HpackDecoder) (out : HeaderList) (fh : FrameHeader) (data : Bytes) :
    (d.decode data out).failed ≠ some .fault ∧
      (∀ r, Http2.Checked.readString r = Http2.readString r ∧ Http2.readString r ≠ .error .fault) ∧
      (∀ index, Http2.Checked.lookupIndexed d index = .ok (d.lookupIndexed index)) ∧
      Http2.Checked.parseSettingsPayload data = .ok (Http2.parseSettingsPayload data) ∧
      Http2.Checked.parseWindowUpdatePayload data = .ok (Http2.parseWindowUpdatePayload data) ∧
      Http2.Checked.parseRstStreamPayload data ≠ .error .fault ∧
      Checked.headersFragment fh data = .ok (headersFragment fh data) ∧
      Checked.continuationFragment data = .ok data ∧
      Checked.dataContent fh data = .ok (Http2.stripPadding data (FrameFlags.has fh.flags FrameFlags.padded)) := by
  refine ⟨decodeFrom_ne_fault d _ out, fun r => ⟨readString_eq r, readString_ne_fault r⟩, lookupIndexed_eq d,
    parseSettingsPayload_eq data, parseNumber_eq data 31, ?_, Checked.headersFragment_eq fh data, ?_,
    Checked.dataContent_eq fh data⟩
  · rw [parseRstStreamPayload, parseNumber_eq]
    exact fun h => by cases h
  · rw [Checked.continuationFragment, range_eq (by omega), drop_zero, take_length]

end Nhttp.Server.H2
