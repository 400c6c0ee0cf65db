import Nhttp.Http2.HpackPeer
import Nhttp.Http2.Integers

/-!
# The dynamic table over many blocks

* `Evicting`, `decodeField_table`: all that a turn of `decode` does to the table.
* `DecoderCall`: the calls of `decode` and of `set_max_dynamic_table_size`.
* **`dynamicTable_accounted`**: the size is that of the entries and within its bound, after every call.
* **`sizeUpdate_accepted_iff`**: an update is judged by the size that the one before it has set.
-/

namespace Nhttp.Http2

open Octets

namespace HpackDecoder

/-! ## What a turn does to the table -/

/-- The decoders on which a turn calls `evict_to_fit`. -/
inductive Evicting (d : HpackDecoder) : HpackDecoder → Prop
  | add (name value : Bytes) : Evicting d
      { d with
        dynamicTable := (name, value) :: d.dynamicTable
        dynamicTableSize := d.dynamicTableSize + entrySize (name, value) }
  | resize (n : ℕ) : n ≤ d.maxDynamicTableSize → Evicting d { d with maxDynamicTableSize := n }

variable {d d' : HpackDecoder} {r r' : BitReader} {out out' : HeaderList}

theorem readSizeUpdate_ok (h : d.readSizeUpdate r = .ok (r', d')) :
    ∃ n, readInteger r 5 = .ok (n, r') ∧ n ≤ d.maxDynamicTableSize ∧
      d' = evictToFit { d with maxDynamicTableSize := n } := by
  obtain ⟨⟨n, r₁⟩, hi, h⟩ := bind_eq_ok.mp h
  dsimp only at h
  split_ifs at h with hn
  cases h
  exact ⟨n, hi, Nat.le_of_not_lt hn, rfl⟩

theorem decodeField_table (h : d.decodeField r out = .ok (r', d', out')) :
    d' = d ∨ ∃ e, Evicting d e ∧ d' = e.evictToFit := by
  have hlit : ∀ {k : ℕ} {a : Bool}, d.readLiteral r out k a = .ok (r', d', out') →
      d' = d ∨ ∃ e, Evicting d e ∧ d' = e.evictToFit := by
    intro k a h
    obtain ⟨⟨b, r₁⟩, -, h⟩ := bind_eq_ok.mp h
    obtain ⟨⟨i, r₂⟩, -, h⟩ := bind_eq_ok.mp h
    obtain ⟨⟨name, r₃⟩, -, h⟩ := bind_eq_ok.mp h
    obtain ⟨⟨value, r₄⟩, -, h⟩ := bind_eq_ok.mp h
    cases a with
    | false =>
      cases h
      exact .inl rfl
    | true =>
      cases h
      exact .inr ⟨_, .add name value, rfl⟩
  obtain ⟨first, -, h⟩ := bind_eq_ok.mp h
  split_ifs at h
  · obtain ⟨⟨b, r₁⟩, -, h⟩ := bind_eq_ok.mp h
    obtain ⟨⟨i, r₂⟩, -, h⟩ := bind_eq_ok.mp h
    dsimp only at h
    split_ifs at h
    cases hl : d.lookupIndexed i with
    | none =>
      rw [hl] at h
      cases h
    | some e =>
      rw [hl] at h
      cases h
      exact .inl rfl
  · exact hlit h
  · obtain ⟨⟨b, r₁⟩, -, h⟩ := bind_eq_ok.mp h
    obtain ⟨⟨r₂, d₂⟩, hs, h⟩ := bind_eq_ok.mp h
    cases h
    obtain ⟨n, -, hn, rfl⟩ := readSizeUpdate_ok hs
    exact .inr ⟨_, .resize n hn, rfl⟩
  · exact hlit h

/-- The subtractions of `evict_to_fit`: the size before, and what is taken off. -/
def evictions (d : HpackDecoder) : List (ℕ × ℕ) :=
  if d.maxDynamicTableSize < d.dynamicTableSize then
    match _h : d.dynamicTable.getLast? with
    | none => []
    | some back => (d.dynamicTableSize, entrySize back) :: evictions
        { d with
          dynamicTableSize := d.dynamicTableSize - entrySize back
          dynamicTable := d.dynamicTable.dropLast }
  else []
termination_by d.dynamicTable.length
decreasing_by
  have : d.dynamicTable ≠ [] := by rintro h'; rw [h'] at _h; cases _h
  simpa using List.length_pos_iff.mpr this

/-- They are what `evict_to_fit` does to the size. -/
theorem dynamicTableSize_evictToFit (d : HpackDecoder) :
    d.evictToFit.dynamicTableSize = d.evictions.foldl (fun size s => size - s.2) d.dynamicTableSize := by
  fun_induction evictToFit d with
  | case1 d h hl =>
    rw [evictions, if_pos h]
    split
    · rfl
    · next hl' =>
      rw [hl] at hl'
      cases hl'
  | case2 d h back hl ih =>
    rw [evictions, if_pos h]
    split
    · next hl' =>
      rw [hl] at hl'
      cases hl'
    · next hl' =>
      rw [hl] at hl'
      cases hl'
      exact ih
  | case3 d h => rw [evictions, if_neg h, List.foldl_nil]

theorem evictions_of_tableSize (t : List (Bytes × Bytes)) (max : ℕ) :
    ∀ s ∈ evictions ⟨max, tableSize t, t⟩, s.2 ≤ s.1 := by
  fun_induction evict max t with
  | case1 t h ih =>
    intro s hs
    rw [evictions, if_pos h] at hs
    split at hs
    · cases hs
    · rename_i back hl
      rw [tableSize_dropLast hl] at ih
      obtain rfl | hs := List.mem_cons.mp hs
      · obtain ⟨l, rfl⟩ := List.getLast?_eq_some_iff.mp hl
        simp [tableSize]
      · exact ih s hs
  | case2 t h =>
    intro s hs
    rw [evictions, if_neg h] at hs
    cases hs

/-- The size is that of the entries, and within the bound. -/
structure Accounted (d : HpackDecoder) : Prop where
  size_eq : d.dynamicTableSize = tableSize d.dynamicTable
  size_le : d.dynamicTableSize ≤ d.maxDynamicTableSize

theorem accounted_asDecoder (max : ℕ) (t : List (Bytes × Bytes)) : (⟨evict max t, max⟩ : Peer).asDecoder.Accounted :=
  ⟨rfl, tableSize_evict_le max t⟩

/-- **An eviction** never subtracts too much, and leaves the table within its bound. -/
theorem Evicting.accounted {e : HpackDecoder} (he : Evicting d e) (h : d.dynamicTableSize = tableSize d.dynamicTable) :
    e.evictToFit.Accounted ∧ (∀ s ∈ e.evictions, s.2 ≤ s.1) ∧
      e.evictToFit.maxDynamicTableSize ≤ d.maxDynamicTableSize := by
  obtain ⟨max, t, hmax, rfl⟩ : ∃ max t, max ≤ d.maxDynamicTableSize ∧ e = ⟨max, tableSize t, t⟩ := by
    cases he with
    | add name value =>
      refine ⟨d.maxDynamicTableSize, (name, value) :: d.dynamicTable, Nat.le_refl _, ?_⟩
      rw [h]
      simp [tableSize, Nat.add_comm]
    | resize n hn =>
      refine ⟨n, d.dynamicTable, hn, ?_⟩
      rw [← h]
  refine ⟨?_, evictions_of_tableSize t max, ?_⟩
  · rw [evictToFit_eq]
    exact accounted_asDecoder max t
  · rw [evictToFit_eq]
    exact hmax

/-! ## Calls -/

def turns (d : HpackDecoder) (r : BitReader) (out : HeaderList) : List Progress :=
  (r, d, out) ::
    if r.atEnd then []
    else match _h : d.decodeField r out with
      | .error _ => []
      | .ok (r', d', out') => turns d' r' out'
termination_by r.data.length - r.pos
decreasing_by
  have := decodeField_ahead _h
  rw [this.1]
  omega

theorem decodeFrom_inv {I : HpackDecoder → Prop}
    (hI : ∀ {d d' : HpackDecoder}, I d → (d' = d ∨ ∃ e, Evicting d e ∧ d' = e.evictToFit) → I d') (h : I d) :
    (∀ p ∈ d.turns r out, I p.2.1) ∧ I (d.decodeFrom r out).decoder := by
  fun_induction decodeFrom d r out with
  | case1 d r out hend =>
    rw [turns, if_pos hend]
    exact ⟨List.forall_mem_singleton.mpr h, h⟩
  | case2 d r out hend e hf =>
    rw [turns, if_neg hend]
    refine ⟨List.forall_mem_cons.mpr ⟨h, ?_⟩, h⟩
    split
    · exact fun p hp => absurd hp List.not_mem_nil
    · next hok =>
      rw [hf] at hok
      cases hok
  | case3 d r out hend r' d' out' hf ih =>
    obtain ⟨hturns, hafter⟩ := ih (hI h (decodeField_table hf))
    rw [turns, if_neg hend]
    refine ⟨List.forall_mem_cons.mpr ⟨h, ?_⟩, hafter⟩
    split
    · exact fun p hp => absurd hp List.not_mem_nil
    · next hok =>
      rw [hf] at hok
      cases hok
      exact hturns

theorem Accounted.turn (h : d.Accounted) (hd : d' = d ∨ ∃ e, Evicting d e ∧ d' = e.evictToFit) : d'.Accounted := by
  obtain rfl | ⟨e, he, rfl⟩ := hd
  · exact h
  · exact (he.accounted h.size_eq).1

inductive DecoderCall where
  | decode (block : Bytes) (out : HeaderList)
  | setMaxDynamicTableSize (n : ℕ)
deriving DecidableEq

/-- The decoder, and the limit of the constructor or the latest `set_max_dynamic_table_size`. -/
def DecoderCall.run (s : HpackDecoder × ℕ) : DecoderCall → HpackDecoder × ℕ
  | .decode block out => ((s.1.decode block out).decoder, s.2)
  | .setMaxDynamicTableSize n => (s.1.setMaxDynamicTableSize n, n)

def afterCalls (limit : ℕ) (calls : List DecoderCall) : HpackDecoder × ℕ :=
  calls.foldl DecoderCall.run ({ maxDynamicTableSize := limit }, limit)

/-- **The dynamic table is accounted for** after every sequence of blocks: its size is the sum over the entries and
within its bound, and `evict_to_fit` never subtracts too much. -/
theorem dynamicTable_accounted (limit : ℕ) (blocks : List (Bytes × HeaderList)) :
    let d := (afterCalls limit (blocks.map fun b => .decode b.1 b.2)).1
    d.dynamicTableSize = (d.dynamicTable.map fun e => e.1.length + e.2.length + 32).sum ∧
      d.dynamicTableSize ≤ d.maxDynamicTableSize ∧
      ∀ block out, ∀ p ∈ d.turns { data := block } out,
        (∀ r' d' out', p.2.1.decodeField p.1 p.2.2 = .ok (r', d', out') →
          d' = p.2.1 ∨ ∃ e, Evicting p.2.1 e ∧ d' = e.evictToFit) ∧
        ∀ e, Evicting p.2.1 e → ∀ s ∈ e.evictions, s.2 ≤ s.1 := by
  have key : ∀ (blocks : List (Bytes × HeaderList)) (s : HpackDecoder × ℕ), s.1.Accounted →
      ((blocks.map fun b => DecoderCall.decode b.1 b.2).foldl DecoderCall.run s).1.Accounted := by
    intro blocks
    induction blocks with
    | nil => exact fun s h => h
    | cons b blocks ih => exact fun s h => ih _ (decodeFrom_inv Accounted.turn h).2
  have hacc := key blocks ({ maxDynamicTableSize := limit }, limit) ⟨rfl, Nat.zero_le _⟩
  refine ⟨hacc.size_eq, hacc.size_le, fun block out p hp => ⟨fun r' d' out' hf => decodeField_table hf, fun e he => ?_⟩⟩
  have hp' := (decodeFrom_inv Accounted.turn hacc).1 p hp
  exact (he.accounted hp'.size_eq).2.1

/-! ## The limit -/

/-- A decoder with its entries counted and a bound of at most `limit`. -/
structure Limited (limit : ℕ) (d : HpackDecoder) : Prop where
  size_eq : d.dynamicTableSize = tableSize d.dynamicTable
  max_le : d.maxDynamicTableSize ≤ limit

theorem Limited.turn {limit : ℕ} (h : d.Limited limit) (hd : d' = d ∨ ∃ e, Evicting d e ∧ d' = e.evictToFit) :
    d'.Limited limit := by
  obtain rfl | ⟨e, he, rfl⟩ := hd
  · exact h
  · obtain ⟨hacc, -, hmax⟩ := he.accounted h.size_eq
    exact ⟨hacc.size_eq, hmax.trans h.max_le⟩

theorem limited_afterCalls (limit : ℕ) (calls : List DecoderCall) :
    (afterCalls limit calls).1.Limited (afterCalls limit calls).2 := by
  have key : ∀ s : HpackDecoder × ℕ, s.1.Limited s.2 →
      (calls.foldl DecoderCall.run s).1.Limited (calls.foldl DecoderCall.run s).2 := by
    induction calls with
    | nil => exact fun s h => h
    | cons c calls ih =>
      intro s h
      apply ih
      cases c with
      | decode block out => exact (decodeFrom_inv Limited.turn h).2
      | setMaxDynamicTableSize n => exact ⟨h.size_eq, Nat.le_refl n⟩
  exact key _ ⟨rfl, Nat.le_refl limit⟩

theorem first_update {b : UInt8} (h : b &&& 0xe0 = 0x20) : ¬b &&& 0x80 ≠ 0 ∧ b &&& 0xc0 ≠ 0x40 := by
  revert b
  decide +kernel

theorem decodeField_update {b : UInt8} {r₁ : BitReader} {n : ℕ} (ht : r.take = .ok (b, r₁)) (hb : b &&& 0xe0 = 0x20)
    (hi : readInteger r₁ 5 = .ok (n, r')) :
    (∃ p, d.decodeField r out = .ok p) ↔ n ≤ d.maxDynamicTableSize := by
  have hpeek : r.peek = .ok b := by
    unfold BitReader.peek BitReader.byteAt
    rw [(BitReader.take_ok ht).2]
  obtain ⟨h80, hc0⟩ := first_update hb
  have hfield : d.decodeField r out = d.readSizeUpdate r₁ >>= fun q => .ok (q.1, q.2, out) := by
    unfold decodeField
    rw [hpeek]
    change (if b &&& 0x80 ≠ 0 then _ else if b &&& 0xc0 = 0x40 then _ else if b &&& 0xe0 = 0x20 then _ else _) = _
    rw [if_neg h80, if_neg hc0, if_pos hb, ht]
    rfl
  rw [hfield]
  constructor
  · rintro ⟨p, h⟩
    obtain ⟨⟨r₂, d₂⟩, hs, -⟩ := bind_eq_ok.mp h
    obtain ⟨m, hm, hle, -⟩ := readSizeUpdate_ok hs
    rw [hi] at hm
    cases hm
    exact hle
  · intro hle
    refine ⟨(r', evictToFit { d with maxDynamicTableSize := n }, out), bind_eq_ok.mpr ⟨(r', _), ?_, rfl⟩⟩
    refine bind_eq_ok.mpr ⟨(n, r'), hi, ?_⟩
    exact if_neg (Nat.not_lt.mpr hle)

/-- **An update is judged by the size the one before it has set**, and `set_max_dynamic_table_size` evicts nothing. -/
theorem sizeUpdate_accepted_iff (limit : ℕ) (calls : List DecoderCall) :
    (∀ block out, ∀ p ∈ (afterCalls limit calls).1.turns { data := block } out, ∀ b r n r', p.1.take = .ok (b, r) →
      b &&& 0xe0 = 0x20 → readInteger r 5 = .ok (n, r') →
        (((∃ q, p.2.1.decodeField p.1 p.2.2 = .ok q) ↔ n ≤ (afterCalls limit calls).2) ↔
          n ≤ p.2.1.maxDynamicTableSize ∨ (afterCalls limit calls).2 < n)) ∧
    ∀ n, (∀ block out,
        ∀ p ∈ (afterCalls limit (calls ++ [.setMaxDynamicTableSize n])).1.turns { data := block } out,
          tableSize p.2.1.dynamicTable ≤ n) ↔
      tableSize (afterCalls limit calls).1.dynamicTable ≤ n := by
  have hlim := limited_afterCalls limit calls
  constructor
  · intro block out p hp b r n r' ht hb hi
    have hmax := ((decodeFrom_inv Limited.turn hlim).1 p hp).max_le
    rw [decodeField_update ht hb hi]
    omega
  · intro n
    have hafter : (afterCalls limit (calls ++ [.setMaxDynamicTableSize n])).1 =
        (afterCalls limit calls).1.setMaxDynamicTableSize n := by
      rw [afterCalls, List.foldl_append]
      rfl
    rw [hafter]
    constructor
    · intro h
      have := h [] [] _ (by rw [turns]; exact List.mem_cons_self)
      exact this
    · intro h block out p hp
      have hstart : ((afterCalls limit calls).1.setMaxDynamicTableSize n).Accounted ∧
          ((afterCalls limit calls).1.setMaxDynamicTableSize n).Limited n :=
        ⟨⟨hlim.size_eq, hlim.size_eq ▸ h⟩, hlim.size_eq, Nat.le_refl n⟩
      have hacc := (decodeFrom_inv Accounted.turn hstart.1).1 p hp
      have hmax := (decodeFrom_inv Limited.turn hstart.2).1 p hp
      calc tableSize p.2.1.dynamicTable = p.2.1.dynamicTableSize := hacc.size_eq.symm
        _ ≤ p.2.1.maxDynamicTableSize := hacc.size_le
        _ ≤ n := hmax.max_le

/-- After an update to 4096, one to 100 is accepted. -/
theorem sizeUpdate_accepted_hundred :
    let s := afterCalls 4096 [.decode [0x3f, 0xe1, 0x1f] []]
    (∃ q, s.1.decodeField { data := [0x3f, 0x45] } [] = .ok q) ↔ 100 ≤ s.2 := by
  have hi := readInteger_advance ⟨[0x3f, 0x45], 0⟩ (show 5 ≤ 7 by decide)
  rw [show integerOf 5 (BitReader.rest ⟨[0x3f, 0x45], 0⟩) = some (100, 1) by decide +kernel] at hi
  refine ((sizeUpdate_accepted_iff 4096 [.decode [0x3f, 0xe1, 0x1f] []]).1 [0x3f, 0x45] [] _
    (by rw [turns]; exact List.mem_cons_self) _ _ 100 _ rfl (by decide) hi).mpr (.inl ?_)
  decide +kernel

/-- **A table shrunk once stays shrunk**: after an update to 0, one back to the limit of 4096 is rejected. -/
theorem sizeUpdate_regrowth_rejected :
    (afterCalls 4096 [.decode [0x20] []]).2 = 4096 ∧
      ((afterCalls 4096 [.decode [0x20] []]).1.decode [0x3f, 0xe1, 0x1f] []).failed = some .reject ∧
    tableSize (afterCalls 4096 [.decode [0x40, 1, 0x61, 1, 0x62] [], .setMaxDynamicTableSize 0]).1.dynamicTable = 34 := by
  decide +kernel

end HpackDecoder

end Nhttp.Http2
