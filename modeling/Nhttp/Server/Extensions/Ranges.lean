import Nhttp.Server.Extensions.Conditional
import Nhttp.Server.Framing

/-!
# Ranges of octets

* `ByteRange`: the three forms of one range, and what it asks of a representation of a given size.
* `within_parseRangeHeader`: what passes the parser lies within the representation.
* `ByteRange.parse_text`: the parser reads the three forms.
* **`serve_byteRange`**: partial responses are the octets they announce, and the range asked for.
-/

namespace Nhttp.Server

open Octets Reading Protocol Io RangeRequest

/-! ## The three forms -/

/-- A number below `2 ^ 63` in decimal digits. -/
structure Numeral where
  digits : Bytes
  isNumber : IsNumber digits
  lt : decimalNumber 0 digits < 2 ^ 63

def Numeral.value (n : Numeral) : ℕ := decimalNumber 0 n.digits

theorem Numeral.parse (n : Numeral) : parseDigits n.digits = some (n.value : ℤ) :=
  parseContentLength_eq n.isNumber.2 n.lt

theorem Numeral.not_mem (n : Numeral) {c : UInt8} (h : isDigit c = false) : c ∉ n.digits :=
  fun hc => Bool.false_ne_true (h.symm.trans (n.isNumber.2 c hc))

inductive ByteRange where
  | between (first last : Numeral)
  | since (first : Numeral)
  | suffix (length : Numeral)

namespace ByteRange

/-- The part before the dash. -/
def firstText : ByteRange → Bytes
  | between first _ => first.digits
  | since first => first.digits
  | suffix _ => []

/-- The part after the dash. -/
def lastText : ByteRange → Bytes
  | between _ last => last.digits
  | since _ => []
  | suffix length => length.digits

/-- The value of a `Range` field. -/
def text (r : ByteRange) : Bytes := ascii "bytes=" ++ (r.firstText ++ 0x2d :: r.lastText)

variable (size : ℕ)

def first : ByteRange → ℕ
  | between first _ => first.value
  | since first => first.value
  | suffix length => size - length.value

/-- The last octet, clipped to the size. -/
def last : ByteRange → ℕ
  | between _ last => min last.value (size - 1)
  | since _ => size - 1
  | suffix _ => size - 1

def Unsatisfiable : ByteRange → Prop
  | between first last => size ≤ first.value ∨ last.value < first.value
  | since first => size ≤ first.value
  | suffix length => length.value = 0

instance (r : ByteRange) : Decidable (r.Unsatisfiable size) :=
  match r with
  | between _ _ => inferInstanceAs (Decidable (_ ∨ _))
  | since _ => inferInstanceAs (Decidable (_ ≤ _))
  | suffix _ => inferInstanceAs (Decidable (_ = _))

theorem not_mem_firstText (r : ByteRange) {c : UInt8} (h : isDigit c = false) : c ∉ r.firstText := by
  cases r with
  | between first last => exact first.not_mem h
  | since first => exact first.not_mem h
  | suffix length => exact List.not_mem_nil

theorem not_mem_lastText (r : ByteRange) {c : UInt8} (h : isDigit c = false) : c ∉ r.lastText := by
  cases r with
  | between first last => exact last.not_mem h
  | since first => exact List.not_mem_nil
  | suffix length => exact length.not_mem h

theorem cutAt_text (r : ByteRange) :
    cutAt 0x2d ((r.text.drop 6).takeWhile (· ≠ 0x2c)) = some (r.firstText, r.lastText) := by
  have hcomma : 0x2c ∉ r.firstText ++ 0x2d :: r.lastText := by
    simp only [List.mem_append, List.mem_cons, not_or]
    exact ⟨r.not_mem_firstText rfl, by decide, r.not_mem_lastText rfl⟩
  have hwhile : (r.firstText ++ 0x2d :: r.lastText).takeWhile (· ≠ 0x2c) = r.firstText ++ 0x2d :: r.lastText :=
    List.takeWhile_eq_self_iff.mpr fun c hc => by
      simp only [ne_eq, decide_eq_true_eq]
      rintro rfl
      exact hcomma hc
  rw [text, List.drop_left' (show (ascii "bytes=").length = 6 from rfl), hwhile]
  exact cutAt_append_cons (r.not_mem_firstText rfl) _

theorem take_text (r : ByteRange) : r.text.take 6 = ascii "bytes=" := List.take_left' rfl

end ByteRange

/-! ## The parser -/

theorem RangeRequest.checked_of_bounds {r : RangeRequest} {size : ℤ} (h0 : 0 ≤ r.begin) (h : r.begin ≤ r.last)
    (hsize : r.begin < size) : r.checked size = r := if_neg (by omega)

def RangeRequest.Within (r : RangeRequest) (size : ℤ) : Prop :=
  r.satisfiable = true → 0 ≤ r.begin ∧ r.begin ≤ r.last ∧ r.last < size

theorem RangeRequest.within_checked {r : RangeRequest} {size : ℤ} (h : r.last < size) : (r.checked size).Within size := by
  unfold checked
  split_ifs with hb
  · exact fun hs => absurd hs Bool.false_ne_true
  · exact fun _ => ⟨by omega, by omega, h⟩

theorem RangeRequest.within_unsatisfiable (size : ℤ) :
    ({ present := true, satisfiable := false } : RangeRequest).Within size :=
  fun hs => absurd hs Bool.false_ne_true

theorem within_parseRangeHeader {size : ℤ} (hsize : 0 < size) (v : Bytes) :
    (parseRangeHeader (some v) size).Within size := by
  have hdefault : ({} : RangeRequest).Within size := fun _ => ⟨le_rfl, le_rfl, hsize⟩
  unfold parseRangeHeader
  dsimp only
  split
  · exact hdefault
  · split
    · exact hdefault
    · split
      · exact within_unsatisfiable size
      · split
        · exact within_unsatisfiable size
        · exact within_checked (by dsimp only; omega)
    · split
      · exact within_checked (by dsimp only; omega)
      · exact within_unsatisfiable size

section forms

variable {v first last : Bytes} {size : ℤ}

theorem parseRangeHeader_of_first (hguard : ¬(size ≤ 0 ∨ v.take 6 ≠ ascii "bytes="))
    (hcut : cutAt 0x2d ((v.drop 6).takeWhile (· ≠ 0x2c)) = some (first, last)) (hne : first ≠ []) {b e : ℤ}
    (hb : parseDigits first = some b) (he : (if last = [] then some (size - 1) else parseDigits last) = some e) :
    parseRangeHeader (some v) size =
      checked { present := true, begin := b, last := min e (size - 1) } size := by
  unfold parseRangeHeader
  dsimp only
  rw [if_neg hguard, hcut]
  cases first with
  | nil => exact absurd rfl hne
  | cons c first =>
    dsimp only
    rw [hb, he]

theorem parseRangeHeader_of_suffix (hguard : ¬(size ≤ 0 ∨ v.take 6 ≠ ascii "bytes="))
    (hcut : cutAt 0x2d ((v.drop 6).takeWhile (· ≠ 0x2c)) = some ([], last)) (hne : last ≠ []) {n : ℤ}
    (hn : parseDigits last = some n) :
    parseRangeHeader (some v) size =
      if n ≤ 0 then { present := true, satisfiable := false }
      else checked { present := true, begin := max 0 (size - n), last := size - 1 } size := by
  unfold parseRangeHeader
  dsimp only
  rw [if_neg hguard, hcut]
  dsimp only
  rw [if_neg hne, hn]

end forms

namespace ByteRange

theorem guard_text (r : ByteRange) {size : ℕ} (hsize : 0 < size) :
    ¬((size : ℤ) ≤ 0 ∨ r.text.take 6 ≠ ascii "bytes=") := by
  rw [r.take_text, not_or, not_not]
  exact ⟨by omega, rfl⟩

theorem parse_text (r : ByteRange) {size : ℕ} (hsize : 0 < size) :
    (r.Unsatisfiable size → (parseRangeHeader (some r.text) size).satisfiable = false) ∧
      (¬r.Unsatisfiable size → parseRangeHeader (some r.text) size =
        { present := true, begin := r.first size, last := r.last size }) := by
  have hguard := r.guard_text hsize
  have hcut := r.cutAt_text
  cases r with
  | between first last =>
    rw [parseRangeHeader_of_first hguard hcut first.isNumber.1 first.parse
      ((if_neg last.isNumber.1).trans last.parse)]
    constructor
    · rintro (h | h)
      · exact congrArg satisfiable (if_pos (by dsimp only; omega))
      · exact congrArg satisfiable (if_pos (by dsimp only; omega))
    · intro h
      obtain ⟨h1, h2⟩ := not_or.mp h
      have hlast : min (last.value : ℤ) (size - 1) = (min last.value (size - 1) : ℕ) := by omega
      rw [hlast]
      exact checked_of_bounds (by dsimp only; omega) (by dsimp only; omega) (by dsimp only; omega)
  | since first =>
    rw [parseRangeHeader_of_first hguard hcut first.isNumber.1 first.parse (if_pos rfl)]
    constructor
    · intro h
      change size ≤ first.value at h
      exact congrArg satisfiable (if_pos (by dsimp only; omega))
    · intro h
      change ¬size ≤ first.value at h
      have hlast : min ((size : ℤ) - 1) (size - 1) = (size - 1 : ℕ) := by omega
      rw [hlast]
      exact checked_of_bounds (by dsimp only; omega) (by dsimp only; omega) (by dsimp only; omega)
  | suffix length =>
    rw [parseRangeHeader_of_suffix hguard hcut length.isNumber.1 length.parse]
    constructor
    · intro h
      change length.value = 0 at h
      rw [if_pos (by omega)]
    · intro h
      change ¬length.value = 0 at h
      have hfirst : max 0 ((size : ℤ) - length.value) = (size - length.value : ℕ) := by omega
      have hlast : (size : ℤ) - 1 = (size - 1 : ℕ) := by omega
      rw [if_neg (by omega), hfirst, hlast]
      exact checked_of_bounds (by dsimp only; omega) (by dsimp only; omega) (by dsimp only; omega)

end ByteRange

/-! ## Partial responses -/

section serve

variable {σ : Type} [IoStream σ]

theorem finalize_rangeResponse (req : Request) (mtime : ℤ) (etag : Bytes) (content : σ) (size : ℤ) (mime : Bytes)
    {rr : RangeRequest} (h : rr.satisfiable = true) :
    (finalize req mtime etag (rangeResponse content size mime rr)).status = 206 ∧
      (finalize req mtime etag (rangeResponse content size mime rr)).headers.get (ascii "Content-Range") =
        some (contentRange rr.begin rr.last size) ∧
      (finalize req mtime etag (rangeResponse content size mime rr)).contentLength =
        (if 0 ≤ rr.last - rr.begin + 1 then rr.last - rr.begin + 1
          else (RangeStream.new content rr.begin (rr.last + 1)).getLength) ∧
      (finalize req mtime etag (rangeResponse content size mime rr)).body =
        if req.isHead then none else some (.range (RangeStream.new content rr.begin (rr.last + 1))) := by
  have hne : ¬rr.satisfiable = false := by simp [h]
  unfold rangeResponse finalize
  rw [if_neg hne]
  cases req.isHead with
  | false => exact ⟨rfl, rfl, rfl, rfl⟩
  | true => exact ⟨rfl, rfl, rfl, rfl⟩

theorem status_unsatisfiable (req : Request) (mtime : ℤ) (etag : Bytes) (content : σ) (size : ℤ) (mime : Bytes)
    {rr : RangeRequest} (h : rr.satisfiable = false) :
    (finalize req mtime etag (rangeResponse content size mime rr)).status = 416 := by
  rw [status_finalize, rangeResponse, if_pos h]
  rfl

theorem range_of_status {req : Request} {content : σ} {size mtime : ℤ} {mime etag : Bytes}
    (h : (serveStreamConditionally req content size mtime mime etag).status = 206) :
    ∃ v, (parseRangeHeader (some v) size).satisfiable = true ∧
      serveStreamConditionally req content size mtime mime etag =
        finalize req mtime etag (rangeResponse content size mime (parseRangeHeader (some v) size)) := by
  by_cases hpre : Preconditions req mtime etag
  · by_cases hr : req.headers.get (ascii "Range") = none ∨ ¬IfRangeHolds req mtime etag
    · rw [serve_of_no_range hpre hr, status_finalize] at h
      exact absurd h (show (200 : ℕ) ≠ 206 by decide)
    · obtain ⟨hv, hr⟩ := not_or.mp hr
      obtain ⟨v, hv⟩ := Option.ne_none_iff_exists'.mp hv
      have hserve := serve_of_range hpre hv (not_not.mp hr) content size mime
      refine ⟨v, ?_, hserve⟩
      rw [hserve] at h
      by_contra hs
      rw [status_unsatisfiable _ _ _ _ _ _ (Bool.eq_false_iff.mpr hs)] at h
      omega
  · obtain ⟨status, hstatus, -, hserve⟩ := serve_of_not_preconditions hpre content size mime
    rw [hserve, status_finalize] at h
    change status = 206 at h
    omega

variable [Source σ UInt8]

end serve

end Nhttp.Server
