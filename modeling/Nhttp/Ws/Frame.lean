import Nhttp.Lib.ExactReads
import Nhttp.Lib.Octets

/-!
# WebSocket frames

* `readFrame`: the reader of `ws_connection`; `frameBytes`: the octets that `write_frame` writes.
* `WireFrame`: the octets of a frame in their parts, whatever its sender chose.
* **`readFrame_eq_some_iff`**: the reader accepts exactly the octets of such frames.
* `Masks`, `WireFrame.Says`: what the octets of a frame say, apart from the reader (`WireFrame.raw_of_says`).
-/

namespace Nhttp.Ws

open Octets ExactReads List Prog

/-! ## The source -/

abbrev opcodeContinuation : UInt8 := 0x0
abbrev opcodeText : UInt8 := 0x1
abbrev opcodeBinary : UInt8 := 0x2
abbrev opcodeClose : UInt8 := 0x8
abbrev opcodePing : UInt8 := 0x9
abbrev opcodePong : UInt8 := 0xA

structure RawFrame where
  fin : Bool
  opcode : UInt8
  payload : Bytes
deriving DecidableEq, Repr

/-- The parts of the first two octets. -/
def finBit (b0 : UInt8) : Bool := b0 &&& 0x80 != 0

def opcodeOf (b0 : UInt8) : UInt8 := b0 &&& 0x0F

def isMasked (b1 : UInt8) : Bool := b1 &&& 0x80 != 0

def lengthCode (b1 : UInt8) : ℕ := (b1 &&& 0x7F).toNat

/-- `payload[i] ^ key[i % 4]`. -/
def maskWith (key data : Bytes) : Bytes := data.mapIdx fun i b => b ^^^ key.getD (i % 4) 0

def readLength (b1 : UInt8) : Prog UInt8 ℕ :=
  if lengthCode b1 = 126 then do
    let ext ← Prog.take 2
    return ofBigEndian ext
  else if lengthCode b1 = 127 then do
    let ext ← Prog.take 8
    return ofBigEndian ext
  else return lengthCode b1

def readKey (b1 : UInt8) : Prog UInt8 Bytes :=
  if isMasked b1 then Prog.take 4 else return [0, 0, 0, 0]

def readPayload (b1 : UInt8) (key : Bytes) (length : ℕ) : Prog UInt8 Bytes :=
  if 0 < length then do
    let payload ← Prog.take length
    return if isMasked b1 then maskWith key payload else payload
  else return []

def readFrame : Prog UInt8 RawFrame := do
  let head ← Prog.take 2
  let b0 := head.getD 0 0
  let b1 := head.getD 1 0
  let length ← readLength b1
  let key ← readKey b1
  let payload ← readPayload b1 key length
  return ⟨finBit b0, opcodeOf b0, payload⟩

/-- The second octet without the mask bit, for a payload of `n` octets. -/
def lengthOctet (n : ℕ) : UInt8 := if n ≤ 125 then UInt8.ofNat n else if n ≤ 0xFFFF then 126 else 127

def lengthExt (n : ℕ) : Bytes :=
  if n ≤ 125 then [] else if n ≤ 0xFFFF then bigEndian n 2 else bigEndian n 8

def firstOctet (fin : Bool) (opcode : UInt8) : UInt8 := (if fin then 0x80 else 0x00) ||| (opcode &&& 0x0F)

/-- `header` in `write_frame`. -/
def frameHeader (fin : Bool) (opcode : UInt8) (n : ℕ) : Bytes :=
  firstOctet fin opcode :: lengthOctet n :: lengthExt n

/-- The octets `write_frame` writes. -/
def frameBytes (f : RawFrame) : Bytes := frameHeader f.fin f.opcode f.payload.length ++ f.payload

/-! ## Octets -/

theorem finBit_firstOctet (fin : Bool) : ∀ opcode, finBit (firstOctet fin opcode) = fin :=
  forall_octet (by cases fin <;> decide +kernel)

theorem opcodeOf_firstOctet (fin : Bool) : ∀ opcode, opcode < 16 → opcodeOf (firstOctet fin opcode) = opcode :=
  forall_octet (by cases fin <;> decide +kernel)

def secondOctet (masked : Bool) (b : UInt8) : UInt8 := (if masked then 0x80 else 0x00) ||| b

variable (masked : Bool)

theorem isMasked_secondOctet : ∀ b : UInt8, b < 128 → isMasked (secondOctet masked b) = masked :=
  forall_octet (by cases masked <;> decide +kernel)

theorem lengthCode_secondOctet : ∀ b : UInt8, b < 128 → lengthCode (secondOctet masked b) = b.toNat :=
  forall_octet (by cases masked <;> decide +kernel)

theorem toNat_lengthOctet (n : ℕ) :
    (lengthOctet n).toNat = if n ≤ 125 then n else if n ≤ 0xFFFF then 126 else 127 := by
  unfold lengthOctet
  split_ifs with h1 h2
  · rw [UInt8.toNat_ofNat']
    omega
  · rfl
  · rfl

theorem lengthOctet_lt (n : ℕ) : lengthOctet n < 128 := by
  rw [UInt8.lt_iff_toNat_lt, toNat_lengthOctet]
  split_ifs with h
  · exact Nat.lt_of_le_of_lt h (by decide)
  · decide
  · decide

@[simp] theorem length_maskWith (key data : Bytes) : (maskWith key data).length = data.length := by
  simp [maskWith]

/-! ## Frames on the wire -/

def extSize (b1 : UInt8) : ℕ := if lengthCode b1 = 126 then 2 else if lengthCode b1 = 127 then 8 else 0

def payloadLength (b1 : UInt8) (ext : Bytes) : ℕ := if extSize b1 = 0 then lengthCode b1 else ofBigEndian ext

structure WireFrame where
  b0 : UInt8
  b1 : UInt8
  ext : Bytes
  key : Bytes
  data : Bytes
  length_ext : ext.length = extSize b1
  length_key : key.length = if isMasked b1 then 4 else 0
  length_data : data.length = payloadLength b1 ext
deriving DecidableEq

namespace WireFrame

def bytes (w : WireFrame) : Bytes := [w.b0, w.b1] ++ (w.ext ++ (w.key ++ w.data))

def payload (w : WireFrame) : Bytes := if isMasked w.b1 then maskWith w.key w.data else w.data

def raw (w : WireFrame) : RawFrame := ⟨finBit w.b0, opcodeOf w.b0, w.payload⟩

end WireFrame

/-! ## What the reader accepts -/

variable {b1 : UInt8} {n : ℕ} {xs ys key : Bytes} {f : RawFrame}

theorem readLength_eq_some_iff :
    (readLength b1).parse xs = some (n, ys) ↔
      ∃ ext : Bytes, ext.length = extSize b1 ∧ payloadLength b1 ext = n ∧ xs = ext ++ ys := by
  -- an extended length of `k` octets
  have hext : ∀ k : ℕ, (do let ext ← take k; return ofBigEndian ext : Prog UInt8 ℕ).parse xs =
      some (n, ys) ↔ ∃ ext : Bytes, ext.length = k ∧ ofBigEndian ext = n ∧ xs = ext ++ ys := by
    intro k
    rw [parse_bind_eq_some]
    constructor
    · rintro ⟨ext, zs, ht, hr⟩
      obtain ⟨hl, rfl⟩ := parse_take_eq_some.mp ht
      cases hr
      exact ⟨ext, hl, rfl, rfl⟩
    · rintro ⟨ext, hl, rfl, rfl⟩
      exact ⟨ext, ys, parse_take_append hl ys, rfl⟩
  unfold readLength payloadLength extSize
  by_cases h1 : lengthCode b1 = 126
  · simp only [if_pos h1, hext, OfNat.ofNat_ne_zero, if_false]
  · by_cases h2 : lengthCode b1 = 127
    · simp only [if_neg h1, if_pos h2, hext, OfNat.ofNat_ne_zero, if_false]
    · simp only [if_neg h1, if_neg h2, if_true, length_eq_zero_iff, exists_eq_left]
      rw [parse_pure, Option.some_inj, Prod.mk.injEq, nil_append]

theorem readKey_eq_some_iff :
    (readKey b1).parse xs = some (key, ys) ↔
      if isMasked b1 then key.length = 4 ∧ xs = key ++ ys else key = [0, 0, 0, 0] ∧ xs = ys := by
  unfold readKey
  split_ifs
  · exact parse_take_eq_some
  · rw [parse_pure, Option.some_inj, Prod.mk.injEq]
    exact and_congr_left' eq_comm

theorem readPayload_eq_some_iff {payload : Bytes} :
    (readPayload b1 key n).parse xs = some (payload, ys) ↔ ∃ data : Bytes, data.length = n ∧
      (if isMasked b1 then maskWith key data else data) = payload ∧ xs = data ++ ys := by
  unfold readPayload
  obtain rfl | hn := Nat.eq_zero_or_pos n
  · rw [if_neg (Nat.lt_irrefl 0), parse_pure, Option.some_inj, Prod.mk.injEq]
    simp [maskWith]
  · rw [if_pos hn, parse_bind_eq_some]
    constructor
    · rintro ⟨data, zs, ht, hr⟩
      obtain ⟨hl, rfl⟩ := parse_take_eq_some.mp ht
      cases hr
      exact ⟨data, hl, rfl, rfl⟩
    · rintro ⟨data, hl, rfl, rfl⟩
      exact ⟨data, ys, parse_take_append hl ys, rfl⟩

/-- **The reader accepts the octets of frames**, and nothing else. -/
theorem readFrame_eq_some_iff {rest : Bytes} :
    readFrame.parse xs = some (f, rest) ↔ ∃ w : WireFrame, w.raw = f ∧ xs = w.bytes ++ rest := by
  unfold readFrame
  simp only [parse_bind_eq_some, parse_take_eq_some, readLength_eq_some_iff,
    readKey_eq_some_iff, readPayload_eq_some_iff]
  constructor
  · rintro ⟨head, _, ⟨hhead, rfl⟩, n, _, ⟨ext, hext, rfl, rfl⟩, key, ks, hkey, payload, _,
      ⟨data, hdata, rfl, rfl⟩, hret⟩
    obtain ⟨b0, b1, rfl⟩ := length_eq_two.mp hhead
    cases hret
    simp only [getD_cons_succ, getD_cons_zero] at hext hdata hkey ⊢
    by_cases hm : isMasked b1
    · rw [if_pos hm] at hkey
      obtain ⟨hkey, rfl⟩ := hkey
      exact ⟨⟨b0, b1, ext, key, data, hext, hkey.trans (if_pos hm).symm, hdata⟩, rfl,
        by simp [WireFrame.bytes]⟩
    · rw [if_neg hm] at hkey
      obtain ⟨rfl, rfl⟩ := hkey
      refine ⟨⟨b0, b1, ext, [], data, hext, (if_neg hm).symm, hdata⟩, ?_, by simp [WireFrame.bytes]⟩
      simp [WireFrame.raw, WireFrame.payload, hm]
  · rintro ⟨w, rfl, rfl⟩
    refine ⟨[w.b0, w.b1], _, ⟨rfl, append_assoc _ _ _⟩, _, _, ⟨w.ext, w.length_ext, rfl,
      append_assoc _ _ _⟩, ?_⟩
    have hkey := w.length_key
    by_cases hm : isMasked w.b1
    · rw [if_pos hm] at hkey
      refine ⟨w.key, w.data ++ rest, ?_, w.payload, rest, ⟨w.data, w.length_data, rfl, rfl⟩, rfl⟩
      exact (if_pos hm).mpr ⟨hkey, append_assoc _ _ _⟩
    · rw [if_neg hm, length_eq_zero_iff] at hkey
      refine ⟨[0, 0, 0, 0], w.data ++ rest, ?_, w.payload, rest, ⟨w.data, w.length_data, ?_, rfl⟩, rfl⟩
      · exact (if_neg hm).mpr ⟨rfl, by rw [hkey, nil_append]⟩
      · rw [WireFrame.payload, if_neg hm]
        exact if_neg hm

theorem WireFrame.bytes_append_inj {v w : WireFrame} (h : v.bytes ++ xs = w.bytes ++ ys) : v = w ∧ xs = ys := by
  obtain ⟨b0, b1, ext, key, data, hext, hkey, hdata⟩ := v
  obtain ⟨b0', b1', ext', key', data', hext', hkey', hdata'⟩ := w
  simp only [bytes, append_assoc] at h
  obtain ⟨hb, h1⟩ := append_inj h rfl
  obtain ⟨rfl, rfl⟩ := hb
  obtain ⟨rfl, h2⟩ := append_inj h1 (hext.trans hext'.symm)
  obtain ⟨rfl, h3⟩ := append_inj h2 (hkey.trans hkey'.symm)
  obtain ⟨rfl, rfl⟩ := append_inj h3 (hdata.trans hdata'.symm)
  exact ⟨rfl, rfl⟩

/-! ## What a frame says -/

/-- `data` is `payload` masked with `key`, as RFC 6455 defines it. -/
def Masks (key payload data : Bytes) : Prop :=
  data.length = payload.length ∧ ∀ i < payload.length, data.getD i 0 = payload.getD i 0 ^^^ key.getD (i % 4) 0

instance (key payload data : Bytes) : Decidable (Masks key payload data) := inferInstanceAs (Decidable (_ ∧ _))

theorem maskWith_of_masks {payload data : Bytes} (h : Masks key payload data) : maskWith key data = payload := by
  refine ext_getElem (by simpa using h.1) fun i h1 h2 => ?_
  have hi := h.2 i h2
  rw [getD_eq_getElem _ _ (by rw [h.1]; exact h2), getD_eq_getElem _ _ h2] at hi
  simp only [maskWith, getElem_mapIdx, hi, UInt8.xor_assoc, UInt8.xor_self, UInt8.xor_zero]

/-- The octets say the frame `f`: the bits of the first octet, and the payload behind the mask. -/
def WireFrame.Says (w : WireFrame) (f : RawFrame) : Prop :=
  (f.fin = true ↔ 128 ≤ w.b0.toNat) ∧ f.opcode.toNat = w.b0.toNat % 16 ∧
    if 128 ≤ w.b1.toNat then Masks w.key f.payload w.data else w.data = f.payload

instance (w : WireFrame) (f : RawFrame) : Decidable (w.Says f) := inferInstanceAs (Decidable (_ ∧ _ ∧ _))

theorem isMasked_iff : ∀ b : UInt8, isMasked b = true ↔ 128 ≤ b.toNat := forall_octet (by decide +kernel)

theorem finBit_iff : ∀ b : UInt8, finBit b = true ↔ 128 ≤ b.toNat := forall_octet (by decide +kernel)

theorem toNat_opcodeOf : ∀ b : UInt8, (opcodeOf b).toNat = b.toNat % 16 := forall_octet (by decide +kernel)

/-- The reader's own unmasking finds what the octets say. -/
theorem WireFrame.raw_of_says {w : WireFrame} (h : w.Says f) : w.raw = f := by
  obtain ⟨fin, opcode, payload⟩ := f
  obtain ⟨hfin, hop, hp⟩ := h
  have h1 : finBit w.b0 = fin := by rw [Bool.eq_iff_iff, finBit_iff, hfin]
  have h2 : opcodeOf w.b0 = opcode := UInt8.toNat_inj.mp ((toNat_opcodeOf _).trans hop.symm)
  have h3 : w.payload = payload := by
    simp only [← isMasked_iff] at hp
    unfold WireFrame.payload
    split_ifs at hp ⊢ with hm
    · exact maskWith_of_masks hp
    · exact hp
  rw [WireFrame.raw, h1, h2, h3]

/-! ## Encoding -/

theorem extSize_lengthOctet (n : ℕ) :
    extSize (secondOctet masked (lengthOctet n)) = (lengthExt n).length := by
  rw [extSize, lengthCode_secondOctet masked _ (lengthOctet_lt n), toNat_lengthOctet, lengthExt]
  split_ifs <;> first | rfl | omega

theorem payloadLength_lengthOctet (h : n < 2 ^ 64) :
    payloadLength (secondOctet masked (lengthOctet n)) (lengthExt n) = n := by
  rw [payloadLength, extSize_lengthOctet, lengthCode_secondOctet masked _ (lengthOctet_lt n),
    toNat_lengthOctet, lengthExt]
  by_cases h1 : n ≤ 125
  · rw [if_pos h1, if_pos h1, length_nil, if_pos rfl]
  · rw [if_neg h1]
    by_cases h2 : n ≤ 0xFFFF
    · rw [if_pos h2, length_bigEndian, if_neg (by omega), ofBigEndian_bigEndian (by omega)]
    · rw [if_neg h2, length_bigEndian, if_neg (by omega), ofBigEndian_bigEndian (by omega)]

def WireFrame.encode (fin : Bool) (opcode : UInt8) (key data : Bytes)
    (hkey : key.length = if masked then 4 else 0) (hdata : data.length < 2 ^ 64) : WireFrame where
  b0 := firstOctet fin opcode
  b1 := secondOctet masked (lengthOctet data.length)
  ext := lengthExt data.length
  key := key
  data := data
  length_ext := (extSize_lengthOctet _ _).symm
  length_key := by rw [isMasked_secondOctet _ _ (lengthOctet_lt _), hkey]
  length_data := (payloadLength_lengthOctet _ hdata).symm

theorem WireFrame.raw_encode {fin : Bool} {opcode : UInt8} {payload data : Bytes} (ho : opcode < 16)
    (hkey : key.length = if masked then 4 else 0) (hdata : data.length < 2 ^ 64)
    (h : if masked then Masks key payload data else data = payload) :
    (WireFrame.encode masked fin opcode key data hkey hdata).raw = ⟨fin, opcode, payload⟩ := by
  have hm : isMasked (WireFrame.encode masked fin opcode key data hkey hdata).b1 = masked :=
    isMasked_secondOctet _ _ (lengthOctet_lt _)
  refine raw_of_says ⟨?_, ?_, ?_⟩
  · rw [← finBit_iff, WireFrame.encode, finBit_firstOctet]
  · rw [← toNat_opcodeOf, WireFrame.encode, opcodeOf_firstOctet _ _ ho]
  · simp only [← isMasked_iff, hm]
    exact h

theorem frameBytes_eq_encode (f : RawFrame) (h : f.payload.length < 2 ^ 64) :
    frameBytes f = (WireFrame.encode false f.fin f.opcode [] f.payload rfl h).bytes := by
  have hs : ∀ b : UInt8, secondOctet false b = b := forall_octet (by decide +kernel)
  simp [frameBytes, frameHeader, WireFrame.bytes, WireFrame.encode, hs]

theorem exists_readFrame_flatMap {fs : List RawFrame}
    (h : xs = (f :: fs).flatMap frameBytes) (hlen : xs.length < 2 ^ 64) :
    ∃ g, readFrame.parse xs = some (g, fs.flatMap frameBytes) := by
  have hp : f.payload.length < 2 ^ 64 := by
    rw [h, flatMap_cons, frameBytes, length_append, length_append] at hlen
    omega
  rw [flatMap_cons, frameBytes_eq_encode f hp] at h
  exact ⟨_, readFrame_eq_some_iff.mpr ⟨_, rfl, h⟩⟩

end Nhttp.Ws
