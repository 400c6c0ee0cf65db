import Nhttp.Protocol.ChunkedScan
import Nhttp.Protocol.Header

/-!
# Well-formed chunked bodies

* `Chunk`, `ChunkedBody`: chunks with any spelling of their sizes and any extensions, a last chunk
  and trailer lines.
* `ChunkedBody.scan_bytes`: the decoder delivers the data of the chunks and stops right behind
  the body, whatever follows.
-/

namespace Nhttp.Protocol

open Octets
open List hiding le_trans lt_of_le_of_lt

/-! ## Sizes -/

/-- The number written by hexadecimal digits, after `acc`. -/
def hexNumber (acc : ℕ) (digits : Bytes) : ℕ :=
  digits.foldl (fun acc c => acc * 16 + (hexValue c).getD 0) acc

def IsHex (digits : Bytes) : Prop := ∀ c ∈ digits, (hexValue c).isSome

instance (digits : Bytes) : Decidable (IsHex digits) :=
  inferInstanceAs (Decidable (∀ c ∈ digits, (hexValue c).isSome))

theorem hexNumber_cons (acc : ℕ) (c : UInt8) (digits : Bytes) :
    hexNumber acc (c :: digits) = hexNumber (acc * 16 + (hexValue c).getD 0) digits := rfl

theorem hexNumber_append (acc : ℕ) (a b : Bytes) :
    hexNumber acc (a ++ b) = hexNumber (hexNumber acc a) b := foldl_append

theorem le_hexNumber (acc : ℕ) (digits : Bytes) : acc ≤ hexNumber acc digits := by
  induction digits generalizing acc with
  | nil => exact le_rfl
  | cons c digits ih =>
    rw [hexNumber_cons]
    exact le_trans (by omega) (ih _)

/-- A chunk extension: blanks, then a semicolon and anything but a line feed. -/
def IsExtension (ext : Bytes) : Prop :=
  LF ∉ ext ∧ (ext = [] ∨ (ext.dropWhile isBlank).head? = some 0x3b)

theorem isExtension_nil : IsExtension [] := ⟨not_mem_nil, .inl rfl⟩

theorem hexValue_head_extension {ext : Bytes} (h : IsExtension ext) {c : UInt8}
    (hc : ext.head? = some c) : hexValue c = none := by
  obtain ⟨-, rfl | h⟩ := h
  · cases hc
  · obtain ⟨e, rfl⟩ : ∃ e, ext = c :: e := by
      cases ext with
      | nil => cases hc
      | cons x e => cases hc; exact ⟨e, rfl⟩
    rw [dropWhile_cons] at h
    split_ifs at h with hb
    · have : c = 0x20 ∨ c = 0x09 := by simpa [isBlank] using hb
      obtain rfl | rfl := this <;> rfl
    · cases h
      rfl

theorem chunkSizeFrom_eq {digits ext : Bytes} (hd : IsHex digits)
    (he : ∀ c, ext.head? = some c → hexValue c = none) {size : ℕ} {any : Bool}
    (hany : any = true ∨ digits ≠ []) (hlt : hexNumber size digits < 2 ^ 64) :
    chunkSizeFrom size any (digits ++ ext) = some (hexNumber size digits) := by
  induction digits generalizing size any with
  | nil =>
    have hany : any = true := by simpa using hany
    cases ext with
    | nil => simp [chunkSizeFrom, hany, hexNumber]
    | cons c ext => simp [chunkSizeFrom, he c rfl, hany, hexNumber]
  | cons c digits ih =>
    obtain ⟨v, hv⟩ := Option.isSome_iff_exists.mp (hd c mem_cons_self)
    have hle := le_hexNumber (size * 16 + v) digits
    rw [hexNumber_cons, hv, Option.getD_some] at hlt ⊢
    rw [cons_append, chunkSizeFrom, hv]
    simp only
    rw [Nat.mod_eq_of_lt (lt_of_le_of_lt hle hlt)]
    exact ih (fun x hx => hd x (mem_cons_of_mem _ hx)) (.inl rfl) hlt

theorem chunkSize_eq {digits ext : Bytes} (hd : IsHex digits) (hne : digits ≠ [])
    (he : IsExtension ext) (hlt : hexNumber 0 digits < 2 ^ 64) :
    chunkSize (digits ++ ext) = some (hexNumber 0 digits) :=
  chunkSizeFrom_eq hd (fun _ hc => hexValue_head_extension he hc) (.inr hne) hlt

theorem not_mem_lf_of_isHex {digits : Bytes} (h : IsHex digits) : LF ∉ digits := fun hm => by
  have := h LF hm
  simp [show hexValue LF = none from rfl] at this

theorem hexValue_hexDigit : ∀ v < 16, hexValue (hexDigit v) = some v := by decide

theorem isHex_hexDigits (v : ℕ) : IsHex (hexDigits v) := by
  fun_induction hexDigits v with
  | case1 => intro c hc; cases hc
  | case2 v hv ih =>
    intro c hc
    obtain hc | hc := mem_append.mp hc
    · exact ih c hc
    · rw [mem_singleton.mp hc, hexValue_hexDigit _ (Nat.mod_lt _ (by omega))]
      rfl

theorem hexNumber_hexDigits (v : ℕ) : hexNumber 0 (hexDigits v) = v := by
  fun_induction hexDigits v with
  | case1 => rfl
  | case2 v hv ih =>
    rw [hexNumber_append, ih, hexNumber_cons, hexValue_hexDigit _ (Nat.mod_lt _ (by omega))]
    exact Nat.div_add_mod' v 16

/-! ## Bodies -/

structure Chunk where
  digits : Bytes
  ext : Bytes
  data : Bytes
  isHex : IsHex digits
  isExtension : IsExtension ext
  size_eq : hexNumber 0 digits = data.length
  size_pos : 0 < data.length
  size_lt : data.length < 2 ^ 64

structure ChunkedBody where
  chunks : List Chunk
  lastDigits : Bytes
  lastExt : Bytes
  trailers : List Bytes
  last_ne_nil : lastDigits ≠ []
  last_zero : ∀ c ∈ lastDigits, c = 0x30
  last_isExtension : IsExtension lastExt
  isTrailer : ∀ t ∈ trailers, t ≠ [] ∧ LF ∉ t

/-! The plain last chunk has one digit, no extension and no trailers. -/

theorem lastDigit_ne_nil : [(0x30 : UInt8)] ≠ [] := cons_ne_nil _ _

theorem lastDigit_zero : ∀ c ∈ [(0x30 : UInt8)], c = 0x30 := fun _ hc => mem_singleton.mp hc

theorem isTrailer_nil : ∀ t ∈ ([] : List Bytes), t ≠ [] ∧ LF ∉ t := fun _ ht => absurd ht not_mem_nil

namespace Chunk

def bytes (c : Chunk) : Bytes := c.digits ++ c.ext ++ CR :: LF :: (c.data ++ [CR, LF])

theorem scan_bytes_append (c : Chunk) (rest : Bytes) :
    scan (c.bytes ++ rest) = ⟨c.data ++ (scan rest).body, (scan rest).past⟩ := by
  have hne : c.digits ≠ [] := by
    intro h
    have := c.size_eq
    rw [h] at this
    exact absurd this.symm c.size_pos.ne'
  have hlf : LF ∉ c.digits ++ c.ext := by
    rw [mem_append]
    exact not_or.mpr ⟨not_mem_lf_of_isHex c.isHex, c.isExtension.1⟩
  have hb : c.bytes ++ rest = c.digits ++ c.ext ++ CR :: LF :: (c.data ++ CR :: LF :: rest) := by
    simp [bytes]
  obtain ⟨size, hsize⟩ : ∃ size, c.data.length = size + 1 := ⟨_, (Nat.succ_pred c.size_pos.ne').symm⟩
  rw [hb, scan_of_some (lineAt_crlf hlf _), drop_crlf,
    chunkSize_eq c.isHex hne c.isExtension (by rw [c.size_eq]; exact c.size_lt), c.size_eq, hsize]
  simp only
  rw [← hsize, scanChunk, drop_crlf, take_left]

end Chunk

theorem hexNumber_zeros {digits : Bytes} (h : ∀ c ∈ digits, c = 0x30) :
    IsHex digits ∧ hexNumber 0 digits = 0 := by
  induction digits with
  | nil => exact ⟨fun c hc => (by cases hc), rfl⟩
  | cons c digits ih =>
    obtain ⟨h1, h2⟩ := ih fun x hx => h x (mem_cons_of_mem _ hx)
    have hc := h c mem_cons_self
    subst hc
    refine ⟨fun x hx => ?_, h2⟩
    obtain rfl | hx := mem_cons.mp hx
    · rfl
    · exact h1 x hx

theorem trailersPast_append {trailers : List Bytes} (h : ∀ t ∈ trailers, t ≠ [] ∧ LF ∉ t)
    (rest : Bytes) :
    trailersPast (trailers.flatMap (· ++ [CR, LF]) ++ CR :: LF :: rest) = rest.length := by
  induction trailers with
  | nil =>
    have hl : lineAt (CR :: LF :: rest) = some ([], 2) :=
      lineAt_crlf (show LF ∉ ([] : Bytes) by simp) rest
    rw [flatMap_nil, nil_append, trailersPast_of_some hl, if_pos rfl]
    rfl
  | cons t trailers ih =>
    obtain ⟨hne, hlf⟩ := h t mem_cons_self
    have he : (t :: trailers).flatMap (· ++ [CR, LF]) ++ CR :: LF :: rest =
        t ++ CR :: LF :: (trailers.flatMap (· ++ [CR, LF]) ++ CR :: LF :: rest) := by simp
    rw [he, trailersPast_of_some (lineAt_crlf hlf _), if_neg hne, drop_crlf]
    exact ih fun x hx => h x (mem_cons_of_mem _ hx)

namespace ChunkedBody

def data (b : ChunkedBody) : Bytes := b.chunks.flatMap Chunk.data

def bytes (b : ChunkedBody) : Bytes :=
  b.chunks.flatMap Chunk.bytes ++ (b.lastDigits ++ b.lastExt ++ CR :: LF ::
    (b.trailers.flatMap (· ++ [CR, LF]) ++ [CR, LF]))

theorem bytes_ne_nil (b : ChunkedBody) : b.bytes ≠ [] := by
  simp [bytes]

theorem scan_bytes (b : ChunkedBody) (rest : Bytes) :
    scan (b.bytes ++ rest) = ⟨b.data, rest.length⟩ := by
  obtain ⟨hhex, hzero⟩ := hexNumber_zeros b.last_zero
  have hlf : LF ∉ b.lastDigits ++ b.lastExt := by
    rw [mem_append]
    exact not_or.mpr ⟨not_mem_lf_of_isHex hhex, b.last_isExtension.1⟩
  have hlast : scan (b.lastDigits ++ b.lastExt ++ CR :: LF ::
      (b.trailers.flatMap (· ++ [CR, LF]) ++ CR :: LF :: rest)) = ⟨[], rest.length⟩ := by
    rw [scan_of_some (lineAt_crlf hlf _), drop_crlf,
      chunkSize_eq hhex b.last_ne_nil b.last_isExtension (by rw [hzero]; omega), hzero]
    simp only
    rw [trailersPast_append b.isTrailer]
  have hb : b.bytes ++ rest = b.chunks.flatMap Chunk.bytes ++ (b.lastDigits ++ b.lastExt ++ CR :: LF ::
      (b.trailers.flatMap (· ++ [CR, LF]) ++ CR :: LF :: rest)) := by
    simp [bytes]
  rw [hb, data]
  induction b.chunks with
  | nil => exact hlast
  | cons c cs ih =>
    rw [flatMap_cons, append_assoc, c.scan_bytes_append, ih, flatMap_cons]

end ChunkedBody

/-! ## Malformed bodies -/

def IsSizeLine (line : Bytes) : Prop :=
  ∃ digits ext, line = digits ++ ext ∧ digits ≠ [] ∧ IsHex digits ∧ IsExtension ext

inductive Malformed : Bytes → Prop
  | sizeLine {line rest : Bytes} : LF ∉ line → ¬IsSizeLine line → Malformed (line ++ CR :: LF :: rest)
  | terminator {line data rest : Bytes} : IsSizeLine line → LF ∉ line →
      chunkSize line = some data.length → data ≠ [] → ¬[CR, LF] <+: rest →
      Malformed (line ++ CR :: LF :: (data ++ rest))
  | truncated {line data : Bytes} {size : ℕ} : IsSizeLine line → LF ∉ line →
      chunkSize line = some size → data.length < size → Malformed (line ++ CR :: LF :: data)
  | endOfInput {bs : Bytes} : LF ∉ bs → Malformed bs
  | chunk (c : Chunk) {rest : Bytes} : Malformed rest → Malformed (c.bytes ++ rest)

end Nhttp.Protocol
