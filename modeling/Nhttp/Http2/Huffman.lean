import Nhttp.Http2.HpackTables
import Nhttp.Lib.Trie

/-!
# Huffman-coded strings

* `huffmanTree`, `huffmanDecode`: the trie of the code table and the decoder that rejects bad padding.
* `encodeChar`, `huffmanEncode`: the bit buffer of `hpack_encoder::write_string`.
* `bitsOf_huffmanEncode`: the octets written hold the code words followed by at most seven ones.
* **`huffmanDecode_huffmanEncode`**: decoding undoes encoding.
-/

namespace Nhttp.Http2

open Octets Bits Trie Option
open List hiding le_antisymm

/-! ## The decoder -/

/-- The tree built from the code table; EOS is not inserted. -/
def huffmanTree : Arena UInt8 := Trie.build huffmanWords

structure DecodeState where
  cur : ℕ := 0
  pendingBits : ℕ := 0
  pendingAllOnes : Bool := true
  out : Bytes

/-- One bit of the decoding loop; `none` is the early `return false`. -/
def decodeBit (t : Arena UInt8) (st : DecodeState) (bit : Bool) : Option DecodeState :=
  match child t st.cur bit with
  | none => none
  | some next =>
    match (node t next).symbol with
    | some sym => some { out := st.out ++ [sym] }
    | none => some
        { cur := next
          pendingBits := st.pendingBits + 1
          pendingAllOnes := if bit = false then false else st.pendingAllOnes
          out := st.out }

/-- The two nested loops of `huffman_tree::decode`. -/
def decodeBytes (t : Arena UInt8) (st : DecodeState) (data : Bytes) : Option DecodeState :=
  data.foldlM (fun st byte => (byteBits byte).foldlM (decodeBit t) st) st

/-- `huffman_tree::decode` appending to `out`. -/
def huffmanDecode (data out : Bytes) : Option Bytes :=
  match decodeBytes huffmanTree { out := out } data with
  | none => none
  | some st =>
    if st.pendingBits ≥ 8 then none
    else if st.pendingBits = 0 ∨ st.pendingAllOnes = true then some st.out else none

/-! ## The encoder -/

structure EncodeState where
  encoded : Bytes := []
  bitBuffer : ℕ := 0
  bitCount : ℕ := 0

/-- `while (bit_count >= 8)`: move whole octets out of the bit buffer. -/
def drainBits (st : EncodeState) : EncodeState :=
  if 8 ≤ st.bitCount then
    drainBits
      { st with
        bitCount := st.bitCount - 8
        encoded := st.encoded ++ [UInt8.ofNat ((st.bitBuffer >>> (st.bitCount - 8)) &&& 0xff)] }
  else st
termination_by st.bitCount

def encodeChar (st : EncodeState) (c : UInt8) : EncodeState :=
  let hc := huffmanCode c
  let st := drainBits
    { st with
      bitBuffer := (st.bitBuffer <<< hc.bits) % 2 ^ 64 ||| hc.code
      bitCount := st.bitCount + hc.bits }
  { st with bitBuffer := st.bitBuffer &&& (if st.bitCount = 0 then 0 else 1 <<< st.bitCount - 1) }

/-- The padding of the last octet. -/
def flushBits (st : EncodeState) : Bytes :=
  if 0 < st.bitCount then
    st.encoded ++
      [UInt8.ofNat ((st.bitBuffer <<< (8 - st.bitCount)) ||| (0xff >>> st.bitCount))]
  else st.encoded

/-- The Huffman coding of a string inside `write_string`. -/
def huffmanEncode (value : Bytes) : Bytes := flushBits (value.foldl encodeChar {})

/-! ## The bit buffer holds the code words -/

def wordsOf (value : Bytes) : List Bool := value.flatMap huffmanWord

/-- The loop invariant: the octets written and the pending bits spell `bits`. -/
structure EncodeState.Holds (st : EncodeState) (bits : List Bool) : Prop where
  spell : bitsOf st.encoded ++ msb st.bitBuffer st.bitCount = bits
  count_lt : st.bitCount < 8
  buffer_lt : st.bitBuffer < 2 ^ st.bitCount

theorem drainBits_spec (st : EncodeState) :
    bitsOf (drainBits st).encoded ++ msb (drainBits st).bitBuffer (drainBits st).bitCount =
      bitsOf st.encoded ++ msb st.bitBuffer st.bitCount ∧
    (drainBits st).bitCount < 8 := by
  fun_induction drainBits st with
  | case1 st h ih =>
    obtain ⟨h1, h2⟩ := ih
    refine ⟨h1.trans ?_, h2⟩
    obtain ⟨k, hk⟩ : ∃ k, st.bitCount = 8 + k := ⟨st.bitCount - 8, by omega⟩
    have hbyte : byteBits (UInt8.ofNat ((st.bitBuffer >>> k) &&& 0xff)) =
        msb (st.bitBuffer >>> k) 8 := by
      rw [byteBits_ofNat, show (0xff : ℕ) = 2 ^ 8 - 1 by norm_num, Nat.and_two_pow_sub_one_eq_mod]
      exact msb_mod _ le_rfl
    simp only [hk, Nat.add_sub_cancel_left, bitsOf_append, bitsOf_singleton, hbyte, msb_add _ 8 k,
      append_assoc]
  | case2 st h => exact ⟨rfl, by omega⟩

theorem mask_eq_mod (b k : ℕ) : (b &&& if k = 0 then 0 else 1 <<< k - 1) = b % 2 ^ k := by
  split_ifs with h
  · simp [h, Nat.mod_one]
  · rw [Nat.one_shiftLeft, Nat.and_two_pow_sub_one_eq_mod]

theorem encodeChar_holds {st : EncodeState} {bits : List Bool} (h : st.Holds bits) (c : UInt8) :
    (encodeChar st c).Holds (bits ++ huffmanWord c) := by
  obtain ⟨hcode, -, hbits⟩ := huffmanCode_bounds c
  have hsmall : st.bitBuffer <<< (huffmanCode c).bits < 2 ^ 64 := by
    rw [Nat.shiftLeft_eq]
    calc st.bitBuffer * 2 ^ (huffmanCode c).bits
        ≤ 2 ^ 8 * 2 ^ 30 := Nat.mul_le_mul
          (h.buffer_lt.le.trans (Nat.pow_le_pow_right (by norm_num) h.count_lt.le))
          (Nat.pow_le_pow_right (by norm_num) hbits)
      _ < 2 ^ 64 := by norm_num
  have hspell := (drainBits_spec { st with
    bitBuffer := (st.bitBuffer <<< (huffmanCode c).bits) % 2 ^ 64 ||| (huffmanCode c).code
    bitCount := st.bitCount + (huffmanCode c).bits })
  rw [Nat.mod_eq_of_lt hsmall, msb_append _ _ _ _ hcode] at hspell
  obtain ⟨h1, h2⟩ := hspell
  simp only [encodeChar, Nat.mod_eq_of_lt hsmall]
  refine ⟨?_, h2, ?_⟩
  · simp only [mask_eq_mod, msb_mod _ le_rfl]
    rw [h1, ← append_assoc, h.spell, huffmanWord]
  · simp only [mask_eq_mod]
    exact Nat.mod_lt _ (by positivity)

variable (value : Bytes)

theorem foldl_encodeChar_holds : ∀ {st : EncodeState} {bits : List Bool},
    st.Holds bits → (value.foldl encodeChar st).Holds (bits ++ wordsOf value) := by
  induction value with
  | nil => intro st bits h; simpa [wordsOf] using h
  | cons c value ih =>
    intro st bits h
    have := ih (encodeChar_holds h c)
    simpa [wordsOf] using this

theorem bitsOf_flushBits {st : EncodeState} {bits : List Bool} (h : st.Holds bits) :
    ∃ k < 8, bitsOf (flushBits st) = bits ++ List.replicate k true := by
  unfold flushBits
  split_ifs with hpos
  · refine ⟨8 - st.bitCount, by omega, ?_⟩
    have hff : 0xff >>> st.bitCount = 2 ^ (8 - st.bitCount) - 1 := by
      have := h.count_lt
      interval_cases st.bitCount <;> rfl
    have hlt : 2 ^ (8 - st.bitCount) - 1 < 2 ^ (8 - st.bitCount) := by
      have : 0 < 2 ^ (8 - st.bitCount) := by positivity
      omega
    have hpad := msb_append st.bitBuffer _ st.bitCount _ hlt
    rw [show st.bitCount + (8 - st.bitCount) = 8 by have := h.count_lt; omega,
      msb_two_pow_sub_one _ le_rfl] at hpad
    rw [bitsOf_append, bitsOf_singleton, byteBits_ofNat, hff, hpad, ← append_assoc, h.spell]
  · refine ⟨0, by norm_num, ?_⟩
    have : st.bitCount = 0 := by omega
    rw [← h.spell, this]
    simp [msb]

/-- **The octets written are the code words and at most seven ones.** -/
theorem bitsOf_huffmanEncode :
    ∃ k < 8, bitsOf (huffmanEncode value) = wordsOf value ++ List.replicate k true := by
  have h0 : ({} : EncodeState).Holds [] := ⟨rfl, by norm_num, by norm_num⟩
  have := foldl_encodeChar_holds value h0
  exact bitsOf_flushBits this

/-- A code word has at most 30 bits, so a string of `n` octets takes at most `4 n` octets. -/
theorem length_huffmanEncode_le : (huffmanEncode value).length ≤ 4 * value.length := by
  obtain ⟨k, hk, h⟩ := bitsOf_huffmanEncode value
  have hlen := congrArg List.length h
  rw [length_bitsOf, length_append, length_replicate] at hlen
  have hw : ∀ v : Bytes, (wordsOf v).length ≤ 30 * v.length := by
    intro v
    induction v with
    | nil => simp [wordsOf]
    | cons c v ih =>
      have hc := (huffmanCode_bounds c).2.2
      simp only [wordsOf, flatMap_cons, length_append, length_cons, huffmanWord,
        length_msb] at ih ⊢
      omega
  have := hw value
  cases value with
  | nil => simp only [wordsOf, flatMap_nil, length_nil] at hlen ⊢; omega
  | cons c v => simp only [length_cons] at this ⊢; omega

/-! ## The decoder reads them back -/

theorem decodeBytes_eq (t : Arena UInt8) (data : Bytes) : ∀ st : DecodeState,
    decodeBytes t st data = (bitsOf data).foldlM (decodeBit t) st := by
  unfold decodeBytes
  induction data with
  | nil => intro st; rfl
  | cons b data ih =>
    intro st
    rw [foldlM_cons, ← singleton_append, bitsOf_append, bitsOf_singleton,
      foldlM_append]
    congr 1
    funext st'
    exact ih st'

section Path

variable {t : Arena UInt8} (out : Bytes)

theorem decode_path (p : List Bool) : ∀ {j : ℕ}, walk t 0 p = some j →
    (∀ q, q <+: p → q ≠ [] → look t q = some none) →
    p.foldlM (decodeBit t) { out := out } = some ⟨j, p.length, p.all id, out⟩ := by
  induction p using List.reverseRecOn with
  | nil => intro j hj _; cases hj; rfl
  | append_singleton p b ih =>
    intro j hj hq
    rw [walk_snoc] at hj
    obtain ⟨i, hi, hb⟩ := bind_eq_some_iff.mp hj
    have hsym : (node t j).symbol = none := by
      have := hq (p ++ [b]) prefix_rfl (by simp)
      rw [look, walk_snoc, hi, bind_some, hb] at this
      simpa using this
    rw [foldlM_append, ih hi fun q hqp => hq q (hqp.trans (prefix_append _ _))]
    cases b <;> simp [decodeBit, hb, hsym]

theorem decode_word {w : List Bool} {s : UInt8} (hw : look t w = some (some s)) (hne : w ≠ [])
    (hq : ∀ q, q <+: w → q ≠ w → look t q = some none) :
    w.foldlM (decodeBit t) { out := out } = some { out := out ++ [s] } := by
  obtain ⟨p, b, rfl⟩ : ∃ p b, w = p ++ [b] := by
    rcases eq_nil_or_concat w with h | ⟨p, b, h⟩
    · exact absurd h hne
    · exact ⟨p, b, by rw [h, concat_eq_append]⟩
  obtain ⟨j, hj, hs⟩ := map_eq_some_iff.mp hw
  rw [walk_snoc] at hj
  obtain ⟨i, hi, hb⟩ := bind_eq_some_iff.mp hj
  have hp : ∀ q, q <+: p → q ≠ [] → look t q = some none := by
    intro q hqp _
    refine hq q (hqp.trans (prefix_append _ _)) fun h => ?_
    have := hqp.length_le
    rw [h] at this
    simp at this
  rw [foldlM_append, decode_path out p hi hp]
  simp [decodeBit, hb, hs]

end Path

theorem huffmanWord_ne_nil (c : UInt8) : huffmanWord c ≠ [] := by
  intro h
  have := congrArg List.length h
  rw [huffmanWord, length_msb] at this
  have := (huffmanCode_bounds c).2.1
  simp_all

theorem decode_wordsOf : ∀ out : Bytes, (wordsOf value).foldlM (decodeBit huffmanTree) { out := out } =
      some { out := out ++ value } := by
  induction value with
  | nil => intro out; simp [wordsOf]
  | cons c value ih =>
    intro out
    have hword := decode_word out
      (look_build_word prefixFree_huffmanWords (mem_huffmanWords c)) (huffmanWord_ne_nil c)
      fun q hq hne => look_build_prefix prefixFree_huffmanWords (mem_huffmanWords c) hq hne
    have hcons : wordsOf (c :: value) = huffmanWord c ++ wordsOf value := by simp [wordsOf]
    rw [hcons, foldlM_append]
    unfold huffmanTree at ih ⊢
    rw [hword]
    simpa using ih (out ++ [c])

theorem decode_ones {k : ℕ} (hk : k < 8) (out : Bytes) : ∃ j,
    (List.replicate k true).foldlM (decodeBit huffmanTree) { out := out } =
      some ⟨j, k, true, out⟩ := by
  obtain ⟨hpre, hne⟩ := ones_prefix hk
  have hlook : ∀ q, q <+: List.replicate k true → look huffmanTree q = some none := by
    intro q hq
    refine look_build_prefix prefixFree_huffmanWords (mem_huffmanWords 10) (hq.trans hpre) ?_
    rintro rfl
    exact hne (hpre.eq_of_length (le_antisymm hpre.length_le hq.length_le))
  obtain ⟨j, hj, -⟩ := map_eq_some_iff.mp (hlook _ prefix_rfl)
  refine ⟨j, ?_⟩
  rw [decode_path out _ hj fun q hq _ => hlook q hq]
  simp

theorem huffmanDecode_huffmanEncode : huffmanDecode (huffmanEncode value) [] = some value := by
  obtain ⟨k, hk, hbits⟩ := bitsOf_huffmanEncode value
  obtain ⟨j, hj⟩ := decode_ones hk value
  unfold huffmanDecode
  rw [decodeBytes_eq, hbits, foldlM_append, decode_wordsOf, nil_append]
  simp [hj, Nat.not_le.mpr hk]

end Nhttp.Http2
