import Nhttp.Lib.Reading
import Nhttp.Protocol.Resource

/-!
# Chunked transfer coding

* `formatChunkHeader`: the size line of a chunk.
* `ChunkedDecoder`: `chunked_decoder_stream` over any source.

Two standing facts are fields: once the end of the source has been seen nothing is to come from it, and
inside a chunk some of it is still to be delivered.
-/

namespace Nhttp.Protocol

open Octets Reading

/-! ## Size lines -/

/-- The digits `0123456789abcdef`. -/
def hexDigit (v : ℕ) : UInt8 := UInt8.ofNat (if v < 10 then 0x30 + v else 0x61 + (v - 10))

/-- The hexadecimal digits of `v`, none for `0`. -/
def hexDigits (v : ℕ) : Bytes :=
  if v = 0 then [] else hexDigits (v / 16) ++ [hexDigit (v % 16)]
termination_by v

def formatChunkHeader (length : ℕ) : Bytes :=
  if length = 0 then ascii "0\r\n" else hexDigits length ++ [CR, LF]

def chunkDataTerminator : Bytes := [CR, LF]

def chunkedBodyTerminator : Bytes := ascii "0\r\n\r\n"

/-- The digit loop of `begin_next_chunk`, up to the first octet that is no digit; `none` without a digit. -/
def chunkSizeFrom (size : ℕ) (anyDigit : Bool) : Bytes → Option ℕ
  | [] => if anyDigit then some size else none
  | c :: line =>
    match hexValue c with
    | none => if anyDigit then some size else none
    | some v => chunkSizeFrom ((size * 16 + v) % 2 ^ 64) true line

def chunkSize (line : Bytes) : Option ℕ := chunkSizeFrom 0 false line

/-! ## The decoder -/

theorem remaining_pos_new : true = false → 0 < 0 := fun h => absurd h Bool.noConfusion

/-- `chunked_decoder_stream`. -/
structure ChunkedDecoder (σ : Type) [Source σ UInt8] where
  source : σ
  buffer : Bytes := []
  eofSource : Bool := false
  finished : Bool := false
  remainingInChunk : ℕ := 0
  needNewChunk : Bool := true
  contents_of_eof : eofSource = true → Source.contents source = [] := by simp
  remaining_pos : needNewChunk = false → 0 < remainingInChunk := by first | exact remaining_pos_new | simp

namespace ChunkedDecoder

variable {σ : Type} [Source σ UInt8]

/-- The octets between the decoder's position and the end of the source. -/
def rest (d : ChunkedDecoder σ) : Bytes := d.buffer ++ Source.contents d.source

def fillMore (d : ChunkedDecoder σ) : ChunkedDecoder σ :=
  if d.eofSource then d
  else if h : (Readable.read d.source 4096).1 = [] then
    { d with
      source := (Readable.read d.source 4096).2
      eofSource := true
      contents_of_eof := fun _ => contents_read _ (by omega) h }
  else
    { d with
      source := (Readable.read d.source 4096).2
      buffer := d.buffer ++ (Readable.read d.source 4096).1
      eofSource := false
      contents_of_eof := by simp }

theorem rest_fillMore (d : ChunkedDecoder σ) : d.fillMore.rest = d.rest := by
  unfold fillMore
  split_ifs with h1 h2
  · rfl
  · rw [rest, rest, ← Source.read_append d.source 4096 (by omega), h2]
    rfl
  · rw [rest, rest, ← Source.read_append d.source 4096 (by omega), List.append_assoc]

/-- What `fillMore` decreases: the octets to come, then the end-of-source flag. -/
def toFetch (d : ChunkedDecoder σ) : ℕ := 2 * left d.source + if d.eofSource then 0 else 1

variable {d d' : ChunkedDecoder σ}

theorem toFetch_fillMore (h : d.eofSource = false) :
    d.fillMore.toFetch < d.toFetch := by
  have hl := left_read d.source (show 0 < 4096 by omega)
  unfold fillMore
  rw [if_neg (by simp [h])]
  split_ifs with h2
  · simp only [toFetch, h, h2] at hl ⊢
    simp at hl ⊢
    omega
  · have := List.length_pos_iff.mpr h2
    simp only [toFetch, h]
    simp
    omega

/-- `while (!p(buffer_) && !eof_source_) fill_more()`. -/
def fillUntil (p : Bytes → Bool) (d : ChunkedDecoder σ) : ChunkedDecoder σ :=
  if p d.buffer then d
  else if _h : d.eofSource then d
  else fillUntil p d.fillMore
termination_by d.toFetch
decreasing_by exact toFetch_fillMore (by simpa using _h)

/-- `buffer_.find('\n') != npos`. -/
def hasLine (b : Bytes) : Bool := decide (LF ∈ b)

/-- `read_line`: fill until there is a line feed, then take the line out of the buffer. -/
def readLine (d : ChunkedDecoder σ) : Option Bytes × ChunkedDecoder σ :=
  let d := d.fillUntil hasLine
  match lineAt d.buffer with
  | none => (none, d)
  | some (line, k) => (some line, { d with buffer := d.buffer.drop k })

theorem rest_fillUntil (p : Bytes → Bool) (d : ChunkedDecoder σ) :
    (d.fillUntil p).rest = d.rest := by
  fun_induction fillUntil p d with
  | case1 | case2 => rfl
  | case3 d _ _ ih => rw [ih, rest_fillMore]

theorem length_rest_readLine (d : ChunkedDecoder σ) {line : Bytes}
    (h : d.readLine = (some line, d')) : d'.rest.length < d.rest.length := by
  unfold readLine at h
  dsimp only at h
  split at h
  · cases h
  · next hl =>
    cases h
    have := lineAt_length hl
    rw [← rest_fillUntil hasLine d]
    simp only [rest, List.length_append, List.length_drop]
    omega

/-- The trailer loop of `begin_next_chunk`: lines up to an empty one or the end of the source. -/
def skipTrailers (d : ChunkedDecoder σ) : ChunkedDecoder σ :=
  match _h : d.readLine with
  | (none, d') => d'
  | (some line, d') => if line = [] then d' else skipTrailers d'
termination_by d.rest.length
decreasing_by exact length_rest_readLine d _h

def finish (d : ChunkedDecoder σ) : ChunkedDecoder σ := { d with finished := true }

def beginNextChunk (d : ChunkedDecoder σ) : Bool × ChunkedDecoder σ :=
  match d.readLine with
  | (none, d) => (false, d.finish)
  | (some line, d) =>
    match chunkSize line with
    | none => (false, d.finish)
    | some 0 => (false, d.skipTrailers.finish)
    | some (size + 1) => (true,
        { d with
          remainingInChunk := size + 1
          needNewChunk := false
          remaining_pos := fun _ => Nat.succ_pos size })

/-- The copy at the end of `read`; with the last octet of a chunk the two after it leave the buffer. -/
def copy (d : ChunkedDecoder σ) (toCopy : ℕ) : Bytes × ChunkedDecoder σ :=
  let out := d.buffer.take toCopy
  if h : d.remainingInChunk - toCopy = 0 then
    -- `need_new_chunk_` is set before the fill here, which does not read it
    let d := fillUntil (fun b => decide (2 ≤ b.length))
      { d with
        buffer := d.buffer.drop toCopy
        remainingInChunk := 0
        needNewChunk := true
        remaining_pos := remaining_pos_new }
    (out, if 2 ≤ d.buffer.length then { d with buffer := d.buffer.drop 2 } else d)
  else
    (out,
      { d with
        buffer := d.buffer.drop toCopy
        remainingInChunk := d.remainingInChunk - toCopy
        remaining_pos := fun _ => Nat.pos_of_ne_zero h })

/-- The head of the loop of `read`: inside a chunk, or at the start of the next one. -/
def enterChunk (d : ChunkedDecoder σ) : Bool × ChunkedDecoder σ :=
  if d.needNewChunk then d.beginNextChunk else (true, d)

theorem beginNextChunk_true (h : d.beginNextChunk = (true, d')) :
    d'.rest.length < d.rest.length ∧ d'.needNewChunk = false := by
  unfold beginNextChunk at h
  split at h
  · cases h
  · next line d₁ hl =>
    have hr := length_rest_readLine d hl
    split at h
    · cases h
    · cases h
    · cases h
      exact ⟨hr, rfl⟩

theorem enterChunk_true (h : d.enterChunk = (true, d')) :
    d'.needNewChunk = false ∧
      (d' = d ∨ d.needNewChunk = true ∧ d'.rest.length < d.rest.length) := by
  unfold enterChunk at h
  split_ifs at h with hn
  · exact ⟨(beginNextChunk_true h).2, .inr ⟨hn, (beginNextChunk_true h).1⟩⟩
  · cases h
    exact ⟨by simpa using hn, .inl rfl⟩

def wantNewChunk (d : ChunkedDecoder σ) : ChunkedDecoder σ :=
  { d with needNewChunk := true, remaining_pos := by simp }

/-- `!buffer_.empty()`. -/
def hasOctet (b : Bytes) : Bool := !b.isEmpty

def read (d : ChunkedDecoder σ) (n : ℕ) : Bytes × ChunkedDecoder σ :=
  if d.finished then ([], d)
  else match _h : d.enterChunk with
    | (false, d') => ([], d')
    | (true, d') =>
      let d₁ := d'.fillUntil hasOctet
      if d₁.buffer = [] then ([], d₁.finish)
      else if min n (min d₁.remainingInChunk d₁.buffer.length) = 0 then
        read d₁.wantNewChunk n
      else d₁.copy (min n (min d₁.remainingInChunk d₁.buffer.length))
termination_by 2 * d.rest.length + if d.needNewChunk then 0 else 1
decreasing_by
  have hr : d₁.wantNewChunk.rest = d'.rest := rest_fillUntil hasOctet d'
  have hw : d₁.wantNewChunk.needNewChunk = true := rfl
  rw [hr, if_pos hw]
  obtain ⟨hf, rfl | ⟨hn, hlt⟩⟩ := enterChunk_true _h
  · simp [hf]
  · rw [if_pos hn]
    omega

end ChunkedDecoder

end Nhttp.Protocol
