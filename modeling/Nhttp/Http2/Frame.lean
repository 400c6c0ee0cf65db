import Nhttp.Lib.Octets

/-!
# HTTP/2 frames

* `FrameHeader`: the nine octets in front of every frame; `write` and `parse` follow `frame.cpp`.
* `parseSettingsPayload`, `parseWindowUpdatePayload`, `stripPadding`: the payload helpers.
* `Frame`: a frame as it is handed to `send_frame`, and its octets.
* `FrameHeader.parse_write`: a written header is read back.
-/

namespace Nhttp.Http2

open Octets

inductive FrameType where
  | data
  | headers
  | priority
  | rstStream
  | settings
  | pushPromise
  | ping
  | goaway
  | windowUpdate
  | continuation
  | other (code : UInt8)
deriving DecidableEq, Repr

namespace FrameType

def toByte : FrameType → UInt8
  | data => 0
  | headers => 1
  | priority => 2
  | rstStream => 3
  | settings => 4
  | pushPromise => 5
  | ping => 6
  | goaway => 7
  | windowUpdate => 8
  | continuation => 9
  | other code => code

/-- `static_cast<frame_type>`. -/
def ofByte (b : UInt8) : FrameType :=
  match b.toNat with
  | 0 => data
  | 1 => headers
  | 2 => priority
  | 3 => rstStream
  | 4 => settings
  | 5 => pushPromise
  | 6 => ping
  | 7 => goaway
  | 8 => windowUpdate
  | 9 => continuation
  | _ => other b

theorem ofByte_of_lt {code : UInt8} (h : 9 < code.toNat) : ofByte code = other code := by
  unfold ofByte
  split <;> first | omega | rfl

end FrameType

namespace FrameFlags

abbrev endStream : UInt8 := 0x1

abbrev ack : UInt8 := 0x1

abbrev endHeaders : UInt8 := 0x4

abbrev padded : UInt8 := 0x8

abbrev priority : UInt8 := 0x20

/-- `(flags & flag) != 0`. -/
def has (flags flag : UInt8) : Bool := flags &&& flag != 0

end FrameFlags

structure FrameHeader where
  length : ℕ := 0
  type : FrameType := .data
  flags : UInt8 := 0
  streamId : ℕ := 0
deriving DecidableEq, Repr

/-! ## Numbers -/

def writeU24 (value : ℕ) : Bytes :=
  [UInt8.ofNat (value >>> 16), UInt8.ofNat (value >>> 8), UInt8.ofNat value]

def writeU32 (value : ℕ) : Bytes :=
  [UInt8.ofNat (value >>> 24), UInt8.ofNat (value >>> 16), UInt8.ofNat (value >>> 8),
    UInt8.ofNat value]

/-- The number written by octets, most significant first: `read_u16`, `read_u24`, `read_u32`. -/
def readNumber (bs : Bytes) : ℕ := bs.foldl (fun acc b => acc * 256 + b.toNat) 0

theorem readNumber_writeU24 {value : ℕ} (h : value < 2 ^ 24) : readNumber (writeU24 value) = value := by
  simp only [readNumber, writeU24, List.foldl_cons, List.foldl_nil, UInt8.toNat_ofNat',
    Nat.shiftRight_eq_div_pow]
  omega

theorem readNumber_writeU32 {value : ℕ} (h : value < 2 ^ 32) : readNumber (writeU32 value) = value := by
  simp only [readNumber, writeU32, List.foldl_cons, List.foldl_nil, UInt8.toNat_ofNat',
    Nat.shiftRight_eq_div_pow]
  omega

theorem readNumber_lt (bs : Bytes) : readNumber bs < 256 ^ bs.length := by
  have h : ∀ acc, bs.foldl (fun acc b => acc * 256 + b.toNat) acc < (acc + 1) * 256 ^ bs.length := by
    induction bs with
    | nil => simp
    | cons b bs ih =>
      intro acc
      rw [List.foldl_cons, List.length_cons, Nat.pow_succ]
      refine lt_of_lt_of_le (ih _) ?_
      rw [Nat.mul_comm (256 ^ bs.length) 256, ← Nat.mul_assoc]
      have hb := b.toNat_lt
      exact Nat.mul_le_mul_right _ (by omega)
  simpa [readNumber] using h 0

/-! ## Headers -/

namespace FrameHeader

abbrev wireSize : ℕ := 9

def write (fh : FrameHeader) : Bytes :=
  writeU24 (fh.length % 2 ^ 24) ++ [fh.type.toByte, fh.flags] ++ writeU32 (fh.streamId % 2 ^ 31)

def parse (data : Bytes) : FrameHeader where
  length := readNumber (data.take 3)
  type := .ofByte (data.getD 3 0)
  flags := data.getD 4 0
  streamId := readNumber ((data.drop 5).take 4) % 2 ^ 31

theorem length_write (fh : FrameHeader) : fh.write.length = wireSize := rfl

theorem length_parse_lt (data : Bytes) : (parse data).length < 2 ^ 24 := by
  refine lt_of_lt_of_le (readNumber_lt (data.take 3)) ?_
  exact Nat.pow_le_pow_right (by omega) (List.length_take_le 3 data)

/-- **Headers survive the wire** if their numbers have at most 24 and 31 bits. -/
theorem parse_write_append (fh : FrameHeader) (rest : Bytes) (hl : fh.length < 2 ^ 24)
    (hs : fh.streamId < 2 ^ 31) (ht : FrameType.ofByte fh.type.toByte = fh.type) :
    parse (fh.write ++ rest) = fh := by
  have h1 : readNumber ((fh.write ++ rest).take 3) = fh.length := by
    rw [show (fh.write ++ rest).take 3 = writeU24 (fh.length % 2 ^ 24) from rfl,
      readNumber_writeU24 (Nat.mod_lt _ (by omega)), Nat.mod_eq_of_lt hl]
  have h2 : readNumber (((fh.write ++ rest).drop 5).take 4) = fh.streamId := by
    rw [show ((fh.write ++ rest).drop 5).take 4 = writeU32 (fh.streamId % 2 ^ 31) from rfl,
      readNumber_writeU32 (lt_of_lt_of_le (Nat.mod_lt _ (by omega)) (by omega)), Nat.mod_eq_of_lt hs]
  rw [parse, h1, h2, Nat.mod_eq_of_lt hs]
  show ({ length := _, type := FrameType.ofByte fh.type.toByte, flags := _, streamId := _ } :
    FrameHeader) = fh
  rw [ht]
  rfl

end FrameHeader

/-! ## Payloads -/

structure SettingsParam where
  id : ℕ
  value : ℕ
deriving DecidableEq, Repr

/-- The parameters of a payload whose length is a multiple of six. -/
def readSettings : Bytes → List SettingsParam
  | a :: b :: c :: d :: e :: f :: rest => ⟨readNumber [a, b], readNumber [c, d, e, f]⟩ :: readSettings rest
  | _ => []

def parseSettingsPayload (payload : Bytes) : Option (List SettingsParam) :=
  if payload.length % 6 ≠ 0 then none else some (readSettings payload)

def writeWindowUpdatePayload (increment : ℕ) : Bytes := writeU32 (increment % 2 ^ 31)

def parseWindowUpdatePayload (payload : Bytes) : Option ℕ :=
  if payload.length ≠ 4 then none else some (readNumber payload % 2 ^ 31)

def writeGoawayPayload (lastStreamId error : ℕ) (debugData : Bytes) : Bytes :=
  writeU32 (lastStreamId % 2 ^ 31) ++ writeU32 error ++ debugData

def stripPadding (payload : Bytes) (padded : Bool) : Option Bytes :=
  if padded then
    match payload with
    | [] => none
    | pad :: content =>
      if content.length < pad.toNat then none else some (content.take (content.length - pad.toNat))
  else some payload

def protocolError : ℕ := 0x1

def clientPreface : Bytes := ascii "PRI * HTTP/2.0\r\n\r\nSM\r\n\r\n"

/-- The arguments of a `send_frame` call. -/
structure Frame where
  type : FrameType
  flags : UInt8
  streamId : ℕ
  payload : Bytes
deriving DecidableEq, Repr

namespace Frame

def header (f : Frame) : FrameHeader := ⟨f.payload.length, f.type, f.flags, f.streamId⟩

def bytes (f : Frame) : Bytes := f.header.write ++ f.payload

end Frame

end Nhttp.Http2
