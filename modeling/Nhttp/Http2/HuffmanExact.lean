import Nhttp.Http2.Huffman

/-!
# The language of the Huffman decoder

* `DecodeState.Read`: what the decoder has read so far is the code words of its output and the start of one more
  word.
* `decode_read`: this holds along every input that the decoder goes through.
* **`huffmanDecode_eq_some_iff`**: the decoder accepts exactly what the encoder writes.
-/

namespace Nhttp.Http2

open Octets Bits Trie List

/-! ## What has been read -/

theorem huffmanWord_of_look {q : List Bool} {c : UInt8} (h : look huffmanTree q = some (some c)) :
    q = huffmanWord c := by
  obtain ⟨d, -, hd⟩ := mem_map.mp (mem_of_look_build prefixFree_huffmanWords h)
  obtain ⟨rfl, rfl⟩ := Prod.mk.inj hd
  rfl

theorem wordsOf_append (v w : Bytes) : wordsOf (v ++ w) = wordsOf v ++ wordsOf w := flatMap_append

/-- The state after `bits`: they are the code words of the output behind `out`, and `p` of one more word. -/
structure DecodeState.Read (st : DecodeState) (out : Bytes) (bits p : List Bool) (value : Bytes) : Prop where
  bits_eq : bits = wordsOf value ++ p
  out_eq : st.out = out ++ value
  walk : walk huffmanTree 0 p = some st.cur
  pending : st.pendingBits = p.length
  ones : st.pendingAllOnes = p.all id

theorem read_start (out : Bytes) : ({ out := out } : DecodeState).Read out [] [] [] :=
  ⟨rfl, (append_nil out).symm, rfl, rfl, rfl⟩

theorem decodeBit_eq_some {t : Arena UInt8} {st st' : DecodeState} {b : Bool} (h : decodeBit t st b = some st') :
    ∃ next, child t st.cur b = some next ∧
      ((∃ sym, (node t next).symbol = some sym ∧ st' = { out := st.out ++ [sym] }) ∨
        st' = ⟨next, st.pendingBits + 1, if b = false then false else st.pendingAllOnes, st.out⟩) := by
  unfold decodeBit at h
  cases hc : child t st.cur b with
  | none =>
    rw [hc] at h
    cases h
  | some next =>
    rw [hc] at h
    dsimp only at h
    refine ⟨next, rfl, ?_⟩
    cases hsym : (node t next).symbol with
    | some sym =>
      rw [hsym] at h
      cases h
      exact .inl ⟨sym, rfl, rfl⟩
    | none =>
      rw [hsym] at h
      cases h
      exact .inr rfl

/-- **One bit** goes on with the word, or completes it. -/
theorem DecodeState.Read.decodeBit {st st' : DecodeState} {out : Bytes} {bits p : List Bool} {value : Bytes} {b : Bool}
    (h : st.Read out bits p value) (hs : decodeBit huffmanTree st b = some st') :
    ∃ p' value', st'.Read out (bits ++ [b]) p' value' := by
  obtain ⟨next, hc, hnext⟩ := decodeBit_eq_some hs
  have hwalk : Trie.walk huffmanTree 0 (p ++ [b]) = some next := by
    rw [walk_snoc, h.walk, Option.bind_some, hc]
  obtain ⟨sym, hsym, rfl⟩ | rfl := hnext
  · have hword : p ++ [b] = huffmanWord sym := by
      apply huffmanWord_of_look
      rw [look, hwalk, Option.map_some, hsym]
    refine ⟨[], value ++ [sym], ?_, ?_, rfl, rfl, rfl⟩
    · rw [h.bits_eq, append_assoc, hword, wordsOf_append, append_nil]
      simp [wordsOf]
    · rw [h.out_eq, append_assoc]
  · refine ⟨p ++ [b], value, ?_, h.out_eq, hwalk, ?_, ?_⟩
    · rw [h.bits_eq, append_assoc]
    · rw [h.pending, length_append, length_singleton]
    · rw [h.ones, all_append]
      cases b <;> simp

theorem decode_read (bs : List Bool) : ∀ {st st' : DecodeState} {out : Bytes} {bits p : List Bool} {value : Bytes},
    st.Read out bits p value → bs.foldlM (decodeBit huffmanTree) st = some st' →
    ∃ p' value', st'.Read out (bits ++ bs) p' value' := by
  induction bs with
  | nil =>
    intro st st' out bits p value h hs
    cases hs
    exact ⟨p, value, by rwa [append_nil]⟩
  | cons b bs ih =>
    intro st st' out bits p value h hs
    obtain ⟨st₁, h1, hs⟩ := Option.bind_eq_some_iff.mp hs
    obtain ⟨p₁, value₁, hread⟩ := h.decodeBit h1
    rw [append_cons]
    exact ih hread hs

theorem eq_replicate_of_all {p : List Bool} (h : p.all id = true) : p = List.replicate p.length true := by
  rw [eq_replicate_iff]
  exact ⟨rfl, fun b hb => all_eq_true.mp h b hb⟩

theorem bitsOf_of_huffmanDecode {d s : Bytes} (h : huffmanDecode d [] = some s) :
    ∃ k < 8, bitsOf d = wordsOf s ++ List.replicate k true := by
  unfold huffmanDecode at h
  rw [decodeBytes_eq] at h
  cases hd : (bitsOf d).foldlM (decodeBit huffmanTree) { out := [] } with
  | none =>
    rw [hd] at h
    cases h
  | some st =>
    obtain ⟨p, value, hread⟩ := decode_read (bitsOf d) (read_start []) hd
    rw [hd] at h
    dsimp only at h
    split_ifs at h with hlt hones
    cases h
    have hp : p = List.replicate p.length true := by
      obtain h0 | h1 := hones
      · rw [hread.pending, length_eq_zero_iff] at h0
        rw [h0]
        rfl
      · exact eq_replicate_of_all (hread.ones.symm.trans h1)
    refine ⟨p.length, by rw [← hread.pending]; omega, ?_⟩
    rw [← hp, hread.out_eq]
    exact hread.bits_eq

/-- **What the decoder accepts** is exactly what the encoder writes. -/
theorem huffmanDecode_eq_some_iff (d s : Bytes) : huffmanDecode d [] = some s ↔ d = huffmanEncode s := by
  constructor
  · intro h
    obtain ⟨k, hk, hd⟩ := bitsOf_of_huffmanDecode h
    obtain ⟨j, hj, hs⟩ := bitsOf_huffmanEncode s
    -- both fill up the last octet with fewer than eight ones
    have hdlen := congrArg List.length hd
    have hslen := congrArg List.length hs
    rw [length_bitsOf, length_append, length_replicate] at hdlen hslen
    obtain rfl : k = j := by omega
    exact bitsOf_injective (hd.trans hs.symm)
  · rintro rfl
    exact huffmanDecode_huffmanEncode s

end Nhttp.Http2
