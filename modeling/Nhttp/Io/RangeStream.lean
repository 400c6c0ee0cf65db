import Nhttp.Lib.Reading
import Nhttp.Lib.Octets

/-!
# A byte window of a stream

* `IoStream`: the length and the seeks of `io::stream`; `RangeStream`: `range_stream`.
* `RangeStream.read_window`: reads of a bounded range hand over the window in order and leave the inner
  stream behind it.
* `Holds`: a stream of known octets in which seeks work; `yields_new`: what a window of it yields.
-/

namespace Nhttp.Io

open Octets Reading

inductive SeekOrigin where
  | begin
  | current
  | end
deriving DecidableEq, Repr

/-- `get_length` and `seek` of a stream; both return `-1` where they do not apply. -/
class IoStream (σ : Type) where
  getLength : σ → ℤ
  seek : σ → ℤ → SeekOrigin → ℤ × σ

/-- `static_cast<std::int64_t>`. -/
def toInt64 (z : ℤ) : ℤ := z.bmod (2 ^ 64)

theorem toInt64_of_lt {z : ℤ} (h0 : 0 ≤ z) (h : z < 2 ^ 63) : toInt64 z = z :=
  Int.bmod_eq_of_le (by omega) (by omega)

theorem toInt64_lt (z : ℤ) : toInt64 z < 2 ^ 63 := by
  have := Int.bmod_lt (x := z) (show 0 < 2 ^ 64 by norm_num)
  rw [toInt64]
  omega

theorem le_toInt64 (z : ℤ) : -2 ^ 63 ≤ toInt64 z := by
  have := Int.le_bmod (x := z) (show 0 < 2 ^ 64 by norm_num)
  rw [toInt64]
  omega

structure RangeStream (σ : Type) where
  inner : σ
  bounded : Bool := false
  beginPos : ℤ := 0
  endPos : ℤ := 0
  position : ℤ := 0
  positioned : Bool := false

namespace RangeStream

variable {σ : Type} [IoStream σ]

/-- The constructor: the window is clipped to the length of the inner stream where that is
known. -/
def new (inner : σ) (b e : ℤ) : RangeStream σ :=
  if b < 0 ∨ e < 0 then { inner := inner }
  else
    let length := IoStream.getLength inner
    let beginPos := if 0 ≤ length then min b length else b
    { inner := inner
      beginPos := beginPos
      endPos := if 0 ≤ length then min (max e beginPos) length else max e beginPos
      bounded := true }

def getLength (r : RangeStream σ) : ℤ := if r.bounded then r.endPos - r.beginPos else IoStream.getLength r.inner

def ensurePositioned (r : RangeStream σ) : RangeStream σ :=
  if r.positioned then r
  else if r.bounded then
    { r with inner := (IoStream.seek r.inner r.beginPos .begin).2, positioned := true }
  else { r with positioned := true }

/-- `(end_ - begin_) - position_`. -/
def remaining (r : RangeStream σ) : ℤ := (r.endPos - r.beginPos) - r.position

theorem positioned_ensurePositioned (r : RangeStream σ) : r.ensurePositioned.positioned = true := by
  unfold ensurePositioned
  split_ifs with h
  · exact h
  · rfl
  · rfl

theorem ensurePositioned_of_positioned {r : RangeStream σ} (h : r.positioned = true) :
    r.ensurePositioned = r := if_pos h

variable [Readable σ UInt8]

/-- The size `read` passes on. -/
def clip (r : RangeStream σ) (n : ℕ) : ℕ :=
  if r.bounded ∧ r.remaining < toInt64 n then r.remaining.toNat else n

def read (r : RangeStream σ) (n : ℕ) : Bytes × RangeStream σ :=
  let r := r.ensurePositioned
  if r.bounded ∧ r.remaining ≤ 0 then ([], r)
  else
    let (got, inner) := Readable.read r.inner (r.clip n)
    (got, { r with inner := inner, position := r.position + got.length })

theorem read_ensurePositioned (r : RangeStream σ) (n : ℕ) : r.ensurePositioned.read n = r.read n := by
  rw [read, read, ensurePositioned_of_positioned (positioned_ensurePositioned r)]

section window

variable {σ : Type} [IoStream σ] [Source σ UInt8]

/-- A positioned, bounded range: `xs` is what it still delivers and `ys` what comes after it. -/
structure Window (r : RangeStream σ) (xs ys : Bytes) : Prop where
  positioned : r.positioned = true
  bounded : r.bounded = true
  xs_eq : (Source.contents r.inner).take r.remaining.toNat = xs
  ys_eq : (Source.contents r.inner).drop r.remaining.toNat = ys

/-- **Reads of a window.** A read of `1 ≤ n < 2 ^ 63` octets hands over the next of them. -/
theorem read_window {r : RangeStream σ} {xs ys : Bytes} (h : Window r xs ys) {n : ℕ} (hn : 0 < n)
    (hlt : n < 2 ^ 63) :
    (∃ xs', (r.read n).1 ++ xs' = xs ∧ Window (r.read n).2 xs' ys) ∧
      ((r.read n).1 = [] → xs = []) := by
  obtain ⟨hp, hb, rfl, rfl⟩ := h
  rw [read, ensurePositioned_of_positioned hp]
  split_ifs with hrem
  · have h0 : r.remaining.toNat = 0 := by omega
    refine ⟨⟨_, List.nil_append _, hp, hb, rfl, rfl⟩, fun _ => ?_⟩
    rw [h0, List.take_zero]
  · have hpos : 0 < r.remaining := by
      by_contra hle
      exact hrem ⟨hb, by omega⟩
    obtain ⟨m, hm⟩ : ∃ m, m = r.clip n := ⟨_, rfl⟩
    have hclip : 0 < m ∧ m ≤ r.remaining.toNat := by
      rw [hm, clip, toInt64_of_lt (by omega) (by omega)]
      split_ifs with hc
      · exact ⟨by omega, le_rfl⟩
      · simp only [hb, true_and] at hc
        exact ⟨hn, by omega⟩
    rw [← hm]
    have happ := Source.read_append r.inner m hclip.1
    have hlen := Source.length_read_le r.inner m
    have hnil := Source.contents_of_read_nil r.inner m hclip.1
    generalize Readable.read r.inner m = got at *
    have hrem' : r.remaining.toNat =
        got.1.length + ((r.endPos - r.beginPos) - (r.position + got.1.length)).toNat := by
      simp only [remaining] at hclip ⊢
      omega
    refine ⟨⟨(Source.contents got.2).take
      ((r.endPos - r.beginPos) - (r.position + got.1.length)).toNat, ?_, hp, hb, rfl, ?_⟩, fun h0 => ?_⟩
    · rw [hrem', ← happ, List.take_length_add_append]
    · rw [hrem', ← happ, List.drop_length_add_append]
      rfl
    · rw [hnil h0, List.take_nil]

def weight (r : RangeStream σ) : ℕ := if r.bounded then r.remaining.toNat else Readable.weight r.inner

theorem weight_ensurePositioned (r : RangeStream σ) : r.ensurePositioned.weight = r.weight := by
  unfold ensurePositioned
  split_ifs with hp hb
  · rfl
  · simp [weight, hb, remaining]
  · simp [weight, hb]

instance : Readable (RangeStream σ) UInt8 where
  read := read
  weight := weight
  weight_read r n h := by
    rw [← weight_ensurePositioned r]
    unfold read at h ⊢
    generalize r.ensurePositioned = r at h ⊢
    dsimp only at h ⊢
    split_ifs at h ⊢ with hrem
    · exact absurd rfl h
    · have hpos : 0 < (Readable.read r.inner (r.clip n)).1.length := List.length_pos_iff.mpr h
      by_cases hb : r.bounded = true
      · have : 0 < r.remaining := by
          by_contra hle
          exact hrem ⟨hb, by omega⟩
        simp only [weight, hb, remaining, if_true] at this ⊢
        omega
      · have := Readable.weight_read r.inner (r.clip n) h
        simpa [weight, hb] using this

theorem length_read_le (r : RangeStream σ) {n : ℕ} (hlt : n < 2 ^ 63) : (r.read n).1.length ≤ n := by
  unfold read
  dsimp only
  split_ifs
  · exact Nat.zero_le _
  · refine (Source.length_read_le _ _).trans ?_
    unfold clip
    rw [toInt64_of_lt (by omega) (by omega)]
    split_ifs <;> omega

theorem yields_window {r : RangeStream σ} {xs ys : Bytes} (h : r.ensurePositioned.Window xs ys) {m : ℕ}
    (hm : m < 2 ^ 63) : Yields m r xs := by
  refine ⟨fun r xs => r.ensurePositioned.Window xs ys, h, fun r xs n hw hn hle => ?_⟩
  obtain ⟨⟨xs', happ, hw'⟩, hnil⟩ := read_window hw hn (by omega)
  rw [read_ensurePositioned] at happ hw' hnil
  refine ⟨length_read_le r (by omega), hnil, xs', happ, ?_⟩
  change (r.read n).2.ensurePositioned.Window xs' ys
  rwa [ensurePositioned_of_positioned hw'.positioned]

end window

end RangeStream

/-- A stream that holds these octets, wherever it stands: it knows their number, and seeks lead to any place. -/
structure Holds {σ : Type} [IoStream σ] [Source σ UInt8] (content : σ) (data : Bytes) : Prop where
  length : IoStream.getLength content = data.length
  seek : ∀ p ≤ data.length, Source.contents (IoStream.seek content (p : ℤ) .begin).2 = data.drop p

theorem RangeStream.yields_new {σ : Type} [IoStream σ] [Source σ UInt8] {content : σ} {data : Bytes}
    (h : Holds content data) {b e : ℕ} (hbe : b ≤ e) (he : e ≤ data.length) {m : ℕ} (hm : m < 2 ^ 63) :
    Yields m (RangeStream.new content b e) ((data.drop b).take (e - b)) := by
  have hnew : (RangeStream.new content b e).ensurePositioned =
      ⟨(IoStream.seek content (b : ℤ) .begin).2, true, b, e, 0, true⟩ := by
    have hb : min (b : ℤ) data.length = b := by omega
    have he' : min (max (e : ℤ) b) data.length = e := by omega
    rw [RangeStream.new, if_neg (by omega)]
    simp [RangeStream.ensurePositioned, h.length, hb, he']
  have hwin : (RangeStream.new content b e).ensurePositioned.Window ((data.drop b).take (e - b))
      ((data.drop b).drop (e - b)) := by
    have hrem : ((e : ℤ) - b - 0).toNat = e - b := by omega
    rw [hnew]
    refine ⟨rfl, rfl, ?_, ?_⟩
    · rw [RangeStream.remaining, hrem, h.seek b (by omega)]
    · rw [RangeStream.remaining, hrem, h.seek b (by omega)]
  exact RangeStream.yields_window hwin hm

end Nhttp.Io
