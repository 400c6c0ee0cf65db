import Nhttp.Http2.Hpack

/-!
# HPACK: integers, strings and whole blocks read back

* `readInteger_writeInteger`: every integer below `2 ^ 64` reads back from its prefix coding.
* `readString_writeString`: every string reads back from its Huffman coding.
* **`decode_encode`**: decoding an encoded header list yields the list and leaves the tables alone.
-/

namespace Nhttp.Http2

open Octets BitReader
open List hiding lt_irrefl

/-! ## Reading what lies ahead -/

namespace BitReader

variable {r : BitReader} {b : UInt8} {bs : Bytes}

@[simp] theorem rest_advance (r : BitReader) (n : ℕ) : (r.advance n).rest = r.rest.drop n := by
  simp [rest, advance, drop_drop]

@[simp] theorem advance_advance (r : BitReader) (n m : ℕ) :
    (r.advance n).advance m = r.advance (n + m) := by
  simp [advance, Nat.add_assoc]

theorem getElem?_of_rest (h : r.rest = b :: bs) : r.data[r.pos]? = some b := by
  have := congrArg (fun l : Bytes => l[0]?) h
  simpa [rest] using this

theorem atEnd_of_rest (h : r.rest = b :: bs) : r.atEnd = false := by
  have := (List.getElem?_eq_some_iff.mp (getElem?_of_rest h)).1
  simp [atEnd, this]

theorem peek_of_rest (h : r.rest = b :: bs) : r.peek = .ok b := by
  simp [peek, byteAt, getElem?_of_rest h]

theorem take_of_rest (h : r.rest = b :: bs) : r.take = .ok (b, r.advance 1) := by
  simp only [take, byteAt, getElem?_of_rest h]
  rfl

theorem last_of_rest (h : r.rest = b :: bs) : (r.advance 1).last = .ok b := by
  simp [last, advance, byteAt, getElem?_of_rest h]

theorem length_rest (r : BitReader) : r.rest.length = r.data.length - r.pos := by simp [rest]

theorem atEnd_of_rest_nil (h : r.rest = []) : r.atEnd = true := by
  have := r.length_rest
  rw [h] at this
  simp [atEnd]
  simp at this
  omega

end BitReader

/-! ## Integers -/

variable {x a k v : ℕ} {p : UInt8} {s : Bytes}

theorem continuation_byte (hx : x < 128) :
    (UInt8.ofNat (x ||| 0x80) &&& 0x7f).toNat = x ∧ UInt8.ofNat (x ||| 0x80) &&& 0x80 ≠ 0 := by
  revert x
  decide +kernel

theorem final_byte (hx : x < 128) :
    (UInt8.ofNat x &&& 0x7f).toNat = x ∧ UInt8.ofNat x &&& 0x80 = 0 := by
  revert x
  decide +kernel

variable {r : BitReader} {bs : Bytes}

theorem readIntegerTail_of_rest {b : UInt8} (hr : r.rest = b :: bs)
    (value m : ℕ) : readIntegerTail r value m =
      if b &&& 0x80 = 0 then
        .ok ((value + (b &&& 0x7f).toNat <<< m % 2 ^ 64) % 2 ^ 64, r.advance 1)
      else if 63 < m + 7 then .error .reject
      else readIntegerTail (r.advance 1) ((value + (b &&& 0x7f).toNat <<< m % 2 ^ 64) % 2 ^ 64)
        (m + 7) := by
  rw [readIntegerTail, atEnd_of_rest hr]
  simp only [Bool.false_eq_true, if_false]
  split
  · rename_i e he; rw [take_of_rest hr] at he; cases he
  · rename_i c r' he; rw [take_of_rest hr] at he; cases he; rfl

/-- **The continuation bytes of `v` add `v * 2 ^ m`.** -/
theorem readIntegerTail_write (v : ℕ) : ∀ {r : BitReader} {value m : ℕ} {bs : Bytes},
    r.rest = writeIntegerTail v ++ bs → value + v * 2 ^ m < 2 ^ 64 →
    readIntegerTail r value m = .ok (value + v * 2 ^ m, r.advance (writeIntegerTail v).length) := by
  induction v using Nat.strong_induction_on with
  | _ v ih =>
    intro r value m bs hr hlt
    rw [writeIntegerTail] at hr ⊢
    by_cases hv : 128 ≤ v
    · rw [if_pos hv] at hr ⊢
      obtain ⟨hlow, hflag⟩ := continuation_byte (Nat.mod_lt v (by norm_num : 0 < 128))
      have hsplit : v % 128 * 2 ^ m + v / 128 * 2 ^ (m + 7) = v * 2 ^ m := by
        conv_rhs => rw [← Nat.mod_add_div v 128]
        ring
      -- a further byte follows, so the shift has not reached the last one yet
      have hm : ¬ 63 < m + 7 := by
        intro hc
        have h1 : 2 ^ 64 ≤ 2 ^ (m + 7) := Nat.pow_le_pow_right (by norm_num) (by omega)
        have h2 : 2 ^ (m + 7) ≤ v * 2 ^ m := by
          rw [Nat.pow_add, Nat.mul_comm]; exact Nat.mul_le_mul hv le_rfl
        omega
      rw [readIntegerTail_of_rest hr, if_neg hflag, if_neg hm, hlow, Nat.shiftLeft_eq,
        Nat.mod_eq_of_lt (a := v % 128 * 2 ^ m) (by omega), Nat.mod_eq_of_lt (by omega),
        ih (v / 128) (by omega) (show (r.advance 1).rest = _ ++ bs by simp [hr]) (by omega),
        advance_advance, length_cons, Nat.add_comm 1, Nat.add_assoc value, hsplit]
    · rw [if_neg hv] at hr ⊢
      obtain ⟨hlow, hflag⟩ := final_byte (Nat.not_le.mp hv)
      rw [readIntegerTail_of_rest hr, if_pos hflag, hlow, Nat.shiftLeft_eq,
        Nat.mod_eq_of_lt (a := v * 2 ^ m) (by omega), Nat.mod_eq_of_lt hlt, length_singleton]

theorem pattern_or (hp : p.toNat = 2 ^ k * a) (hx : x < 2 ^ k)
    (hk : k ≤ 7) : (p ||| UInt8.ofNat x).toNat = 2 ^ k * a + x := by
  have h1 : 2 ^ k ≤ 2 ^ 8 := Nat.pow_le_pow_right (by norm_num) (by omega)
  rw [UInt8.toNat_or, UInt8.toNat_ofNat', hp, Nat.mod_eq_of_lt (lt_of_lt_of_le hx h1),
    Nat.two_pow_add_eq_or_of_lt hx]

theorem writeInteger_eq_cons (hp : p.toNat = 2 ^ k * a) (hk : k ≤ 7) :
    ∃ b bs, writeInteger v k p = b :: bs ∧ b.toNat / 2 ^ k = a := by
  have hpos : 0 < 2 ^ k := by positivity
  have hdiv : ∀ x, x < 2 ^ k → (p ||| UInt8.ofNat x).toNat / 2 ^ k = a := by
    intro x hx
    rw [pattern_or hp hx hk, Nat.mul_add_div hpos, Nat.div_eq_of_lt hx, Nat.add_zero]
  unfold writeInteger
  simp only [Nat.one_shiftLeft]
  split_ifs with hv
  · exact ⟨_, _, rfl, hdiv v (by omega)⟩
  · exact ⟨_, _, rfl, hdiv _ (by omega)⟩

theorem readInteger_of_rest {b : UInt8} (hr : r.rest = b :: bs) (k : ℕ) : readInteger (r.advance 1) k =
      if b.toNat &&& (2 ^ k - 1) < 2 ^ k - 1 then .ok (b.toNat &&& (2 ^ k - 1), r.advance 1)
      else readIntegerTail (r.advance 1) (b.toNat &&& (2 ^ k - 1)) 0 := by
  rw [readInteger, last_of_rest hr, Nat.one_shiftLeft]
  rfl

/-- **Every integer below `2 ^ 64` reads back.** -/
theorem readInteger_writeInteger (hp : p.toNat = 2 ^ k * a) (hk : k ≤ 7) (hv : v < 2 ^ 64)
    (hr : r.rest = writeInteger v k p ++ bs) :
    readInteger (r.advance 1) k = .ok (v, r.advance (writeInteger v k p).length) := by
  have hpos : 0 < 2 ^ k := by positivity
  have hand : ∀ x, x < 2 ^ k → (p ||| UInt8.ofNat x).toNat &&& (2 ^ k - 1) = x := by
    intro x hx
    rw [pattern_or hp hx hk, Nat.and_two_pow_sub_one_eq_mod, Nat.mul_add_mod,
      Nat.mod_eq_of_lt hx]
  unfold writeInteger at hr ⊢
  simp only [Nat.one_shiftLeft] at hr ⊢
  by_cases hvk : v < 2 ^ k - 1
  · rw [if_pos hvk] at hr ⊢
    rw [readInteger_of_rest hr, hand v (by omega), if_pos hvk, length_singleton]
  · rw [if_neg hvk] at hr ⊢
    rw [readInteger_of_rest hr, hand (2 ^ k - 1) (by omega), if_neg (lt_irrefl _),
      readIntegerTail_write (v - (2 ^ k - 1)) (show (r.advance 1).rest = _ ++ bs by simp [hr])
        (by simp; omega),
      advance_advance, length_cons, pow_zero, Nat.mul_one,
      Nat.add_sub_cancel' (by omega), Nat.add_comm 1]

/-! ## Strings -/

/-- A coded string with length prefix `n`: `h` tells whether it is Huffman-coded. -/
theorem readString_spec {raw : Bytes} (hp : p.toNat = 2 ^ 7 * a) (hn : raw.length < 2 ^ 64)
    (hr : r.rest = writeInteger raw.length 7 p ++ raw ++ bs)
    (hs : if a = 0 then s = raw else huffmanDecode raw [] = some s) :
    readString r = .ok (s, r.advance (writeInteger raw.length 7 p ++ raw).length) := by
  obtain ⟨b, tl, hw, hb⟩ := writeInteger_eq_cons (v := raw.length) hp le_rfl
  have hr1 : r.rest = b :: (tl ++ raw ++ bs) := by rw [hr, hw]; simp
  have hflag : b &&& 0x80 ≠ 0 ↔ a ≠ 0 := by
    rw [← hb]
    exact forall_octet (p := fun b => b &&& 0x80 ≠ 0 ↔ b.toNat / 2 ^ 7 ≠ 0) (by decide +kernel) b
  have hint := readInteger_writeInteger hp le_rfl hn
    (show r.rest = _ ++ (raw ++ bs) by rw [hr, append_assoc])
  have hrest : (r.advance (writeInteger raw.length 7 p).length).rest = raw ++ bs := by
    rw [rest_advance, hr, append_assoc, drop_left]
  have hlen := (r.advance (writeInteger raw.length 7 p).length).length_rest
  unfold readString
  simp only [atEnd_of_rest hr1, take_of_rest hr1, Bool.false_eq_true, if_false,
    bind, Except.bind, hint, ← hlen, hrest, take_left, advance_advance,
    ← length_append, hflag]
  by_cases ha : a = 0
  · rw [if_pos ha] at hs
    simp [ha, hs]
  · rw [if_neg ha] at hs
    simp [ha, hs]

theorem readString_writeString (hs : s.length < 2 ^ 60) (hr : r.rest = writeString s ++ bs) :
    readString r = .ok (s, r.advance (writeString s).length) :=
  readString_spec (a := 1) (by decide)
    (by have := length_huffmanEncode_le s; omega) hr
    (by rw [if_neg one_ne_zero]; exact huffmanDecode_huffmanEncode s)

/-! ## Blocks -/

namespace HpackDecoder

variable {d : HpackDecoder} {out : HeaderList}

theorem decodeFrom_nil {r : BitReader} (h : r.rest = []) :
    d.decodeFrom r out = ⟨none, d, out⟩ := by
  rw [decodeFrom, atEnd_of_rest_nil h]
  rfl

theorem decodeFrom_step {d' : HpackDecoder} {r r' : BitReader} {out' : HeaderList}
    {b : UInt8} {bs : Bytes} (hr : r.rest = b :: bs)
    (h : d.decodeField r out = .ok (r', d', out')) :
    d.decodeFrom r out = d'.decodeFrom r' out' := by
  rw [decodeFrom, atEnd_of_rest hr]
  simp only [Bool.false_eq_true, if_false]
  split
  · rename_i e he; rw [h] at he; cases he
  · rename_i r₁ d₁ o₁ he; rw [h] at he; cases he; rfl

theorem decodeField_encodeField {r : BitReader}
    {f : HeaderField} {bs : Bytes} (hn : f.name.length < 2 ^ 60) (hv : f.value.length < 2 ^ 60)
    (hr : r.rest = encodeField f ++ bs) :
    d.decodeField r out = .ok (r.advance (encodeField f).length, d, out ++ [f]) := by
  have hr0 : r.rest = 0x00 :: (writeString f.name ++ writeString f.value ++ bs) := by
    simp [hr, encodeField]
  have hr1 : (r.advance 1).rest = writeString f.name ++ (writeString f.value ++ bs) := by
    simp [hr0]
  have hr2 : (r.advance (1 + (writeString f.name).length)).rest = writeString f.value ++ bs := by
    rw [← advance_advance, rest_advance, hr1, drop_left]
  have hint : readInteger (r.advance 1) 4 = .ok (0, r.advance 1) := by
    have := readInteger_writeInteger (r := r) (v := 0) (k := 4) (a := 0) (p := 0x00) (by decide)
      (by norm_num) (by norm_num) (show r.rest = _ ++ (writeString f.name ++ writeString f.value ++ bs)
        by rw [hr0]; rfl)
    simpa [writeInteger] using this
  simp only [decodeField, peek_of_rest hr0, readLiteral, take_of_rest hr0,
    hint, readName, bind, Except.bind]
  rw [if_neg (by decide), if_neg (by decide), if_neg (by decide)]
  simp only [if_true, readString_writeString hn hr1, advance_advance,
    readString_writeString hv hr2, Bool.false_eq_true, if_false, encodeField, length_cons,
    length_append]
  rw [show 1 + (writeString f.name).length + (writeString f.value).length =
    (writeString f.name).length + (writeString f.value).length + 1 by omega]

theorem decodeFrom_encode (hs : HeaderList) : ∀ {d : HpackDecoder} {r : BitReader}
    {out : HeaderList}, (∀ f ∈ hs, f.name.length < 2 ^ 60 ∧ f.value.length < 2 ^ 60) →
    r.rest = encode hs → d.decodeFrom r out = ⟨none, d, out ++ hs⟩ := by
  induction hs with
  | nil => intro d r out _ hr; rw [decodeFrom_nil hr, append_nil]
  | cons f hs ih =>
    intro d r out hlen hr
    obtain ⟨hn, hv⟩ := hlen f mem_cons_self
    have hr' : r.rest = encodeField f ++ encode hs := by rw [hr, encode, flatMap_cons]; rfl
    rw [decodeFrom_step (b := 0x00) (by rw [hr', encodeField]; rfl) (decodeField_encodeField hn hv hr'),
      ih (fun g hg => hlen g (mem_cons_of_mem _ hg)) (by rw [rest_advance, hr', drop_left])]
    simp

/-- **Decoding an encoded header list** yields the list and leaves the tables unchanged. -/
theorem decode_encode (d : HpackDecoder) (hs out : HeaderList)
    (hlen : ∀ f ∈ hs, f.name.length < 2 ^ 60 ∧ f.value.length < 2 ^ 60) :
    d.decode (encode hs) out = ⟨none, d, out ++ hs⟩ :=
  decodeFrom_encode hs hlen rfl

theorem decode_encode_get :
    (⟨4096, 37, [(ascii "a", ascii "bcde")]⟩ : HpackDecoder).decode
        (encode [⟨ascii ":method", ascii "GET"⟩, ⟨ascii "x-k", [0, 10, 255]⟩]) [] =
      ⟨none, ⟨4096, 37, [(ascii "a", ascii "bcde")]⟩,
        [⟨ascii ":method", ascii "GET"⟩, ⟨ascii "x-k", [0, 10, 255]⟩]⟩ :=
  decode_encode _ _ _ (by decide)

end HpackDecoder

end Nhttp.Http2
