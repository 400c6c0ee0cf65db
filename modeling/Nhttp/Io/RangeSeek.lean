import Nhttp.Io.MemoryStream
import Nhttp.Lib.Slices

/-!
# Seeks in a byte window

A range keeps its position twice: as `position_` and as that of the inner stream, set with the first access.

* `InStep`: both agree; `inStep_new`, `InStep.read`, `InStep.seek`: along every sequence of calls.
* **`range_follows_window`**: reads and seeks are those of the window.
-/

namespace Nhttp.Io

open Octets Reading Slices

theorem toInt64_cases {z : ℤ} (h0 : -2 ^ 63 ≤ z) (h : z < 2 ^ 64) :
    (z < 2 ^ 63 ∧ toInt64 z = z) ∨ (2 ^ 63 ≤ z ∧ toInt64 z < 0) := by
  obtain hlt | hle := Int.lt_or_le z (2 ^ 63)
  · exact .inl ⟨hlt, Int.bmod_eq_of_le (by omega) (by omega)⟩
  · refine .inr ⟨hle, ?_⟩
    rw [toInt64, Int.bmod_def]
    omega

namespace RangeStream

section Model

variable {σ : Type} [IoStream σ]

def seek (r : RangeStream σ) (offset : ℤ) (origin : SeekOrigin) : ℤ × RangeStream σ :=
  let target := match origin with
    | .begin => offset
    | .current => toInt64 (r.position + offset)
    | .end => toInt64 ((if r.bounded then r.endPos - r.beginPos else IoStream.getLength r.inner) + offset)
  if target < 0 then (-1, r)
  else
    let innerTarget := if r.bounded then toInt64 (r.beginPos + target) else target
    let (result, inner) := IoStream.seek r.inner innerTarget .begin
    if result < 0 then (-1, { r with inner := inner })
    else
      let position := if r.bounded then result - r.beginPos else result
      (position, { r with inner := inner, position := position, positioned := true })

def base (r : RangeStream σ) : SeekOrigin → ℤ
  | .begin => 0
  | .current => r.position
  | .end => r.getLength

end Model

end RangeStream

/-! ## Calls -/

/-- A call, with the arguments that its types allow: a buffer is no larger than `2 ^ 63 - 1` octets. -/
inductive RangeCall where
  | read (n : ℕ) (lt : n < 2 ^ 63)
  | seek (offset : ℤ) (origin : SeekOrigin) (ge : -2 ^ 63 ≤ offset) (lt : offset < 2 ^ 63)

namespace RangeStream

def after (r : RangeStream MemoryStream) : RangeCall → RangeStream MemoryStream
  | .read n _ => (r.read n).2
  | .seek offset origin _ _ => (r.seek offset origin).2

/-- The octets of `data` from `b` to before `e`. -/
def windowOf (data : Bytes) (b e : ℕ) : Bytes := slice data b (min e data.length - b)

/-! ## Both positions agree -/

/-- The range is the window from `b` to before `e`, and stands at its position `p`. -/
structure InStep (data : Bytes) (b e p : ℕ) (r : RangeStream MemoryStream) : Prop where
  bounded : r.bounded = true
  beginPos : r.beginPos = b
  endPos : r.endPos = e
  data_eq : r.inner.data = data
  position : r.position = p
  inner : r.positioned = true → r.inner.position = b + p
  fresh : r.positioned = false → p = 0
  le : b ≤ e
  e_le : e ≤ data.length
  p_le : b + p ≤ data.length

theorem windowOf_clipped (data : Bytes) (b e : ℕ) :
    windowOf data b e = slice data (min b data.length)
      (min (max e (min b data.length)) data.length - min b data.length) := by
  unfold windowOf
  obtain hlt | hle := Nat.lt_or_ge data.length b
  · rw [slice_of_length_le hlt.le, slice_of_length_le (by omega)]
  · rw [Nat.min_eq_left hle]
    congr 1
    omega

theorem inStep_new (s : MemoryStream) (b e : ℕ) :
    InStep s.data (min b s.data.length) (min (max e (min b s.data.length)) s.data.length) 0 (new s b e) := by
  have hnew : new s (b : ℤ) e =
      ⟨s, true, (min b s.data.length : ℕ), (min (max e (min b s.data.length)) s.data.length : ℕ), 0, false⟩ := by
    have hlen : IoStream.getLength s = (s.data.length : ℤ) := rfl
    rw [new, if_neg (by omega)]
    dsimp only
    rw [hlen, if_pos (by omega), if_pos (by omega)]
    simp
  rw [hnew]
  exact ⟨rfl, rfl, rfl, rfl, rfl, fun h => absurd h Bool.false_ne_true, fun _ => rfl, by omega, by omega, by omega⟩

variable {data : Bytes} {b e p : ℕ} {r : RangeStream MemoryStream}

theorem InStep.length_eq (h : InStep data b e p r) : (slice data b (e - b)).length = e - b := by
  have := h.e_le
  rw [length_slice]
  omega

theorem InStep.getLength (h : InStep data b e p r) : r.getLength = ((slice data b (e - b)).length : ℤ) := by
  have := h.le
  rw [h.length_eq, RangeStream.getLength, if_pos h.bounded, h.beginPos, h.endPos]
  omega

theorem seek_memory {s : MemoryStream} {t : ℕ} (h : t ≤ s.data.length) :
    IoStream.seek s (t : ℤ) .begin = ((t : ℤ), { s with position := t, position_le := h }) := by
  change MemoryStream.seek s t .begin = _
  unfold MemoryStream.seek
  dsimp only
  rw [dif_neg (by omega)]
  simp

theorem seek_memory_failed {s : MemoryStream} {t : ℤ} (h : t < 0 ∨ (s.data.length : ℤ) < t) :
    IoStream.seek s t .begin = (-1, s) := by
  change MemoryStream.seek s t .begin = _
  unfold MemoryStream.seek
  rw [dif_pos h]

theorem InStep.ensurePositioned (h : InStep data b e p r) :
    InStep data b e p r.ensurePositioned ∧ r.ensurePositioned.positioned = true := by
  refine ⟨?_, positioned_ensurePositioned r⟩
  unfold RangeStream.ensurePositioned
  cases hp : r.positioned with
  | true => simpa using h
  | false =>
    have hp0 := h.fresh hp
    have hle := h.p_le
    have hb : b ≤ r.inner.data.length := by
      rw [h.data_eq]
      omega
    have hseek : IoStream.seek r.inner r.beginPos .begin =
        ((b : ℤ), { r.inner with position := b, position_le := hb }) := by
      rw [h.beginPos]
      exact seek_memory hb
    rw [if_neg Bool.false_ne_true, if_pos h.bounded, hseek]
    exact { h with
      inner := fun _ => by rw [hp0]; rfl
      fresh := fun hf => absurd hf.symm Bool.false_ne_true }

theorem InStep.read (h : InStep data b e p r) {n : ℕ} (hn : n < 2 ^ 63) :
    (r.read n).1 = slice (slice data b (e - b)) p n ∧
      InStep data b e (p + (r.read n).1.length) (r.read n).2 := by
  obtain ⟨h', hpos⟩ := h.ensurePositioned
  rw [RangeStream.read]
  generalize r.ensurePositioned = r₁ at h' hpos
  have hrem : r₁.remaining = ((e - b : ℕ) : ℤ) - p := by
    have := h'.le
    rw [remaining, h'.beginPos, h'.endPos, h'.position]
    omega
  dsimp only
  by_cases hend : r₁.remaining ≤ 0
  · rw [if_pos ⟨h'.bounded, hend⟩]
    refine ⟨?_, by simpa using h'⟩
    rw [slice_of_length_le]
    rw [h.length_eq]
    omega
  · rw [if_neg fun hc => hend hc.2]
    have hclip : r₁.clip n = min n (e - b - p) := by
      unfold clip
      rw [toInt64_of_lt (by omega) (by omega)]
      by_cases hc : r₁.remaining < n
      · rw [if_pos ⟨h'.bounded, hc⟩]
        omega
      · rw [if_neg fun hx => hc hx.2]
        omega
    have hgot : (Readable.read r₁.inner (r₁.clip n)).1 = slice (slice data b (e - b)) p n := by
      change ((r₁.inner.data.drop r₁.inner.position).take _) = _
      rw [h'.data_eq, h'.inner hpos, hclip, slice_slice]
      exact slice_min data (b + p) _
    have hinner : (Readable.read r₁.inner (r₁.clip n)).2.position =
        r₁.inner.position + (Readable.read r₁.inner (r₁.clip n)).1.length := by
      change r₁.inner.position + _ = r₁.inner.position + (r₁.inner.read _).1.length
      rw [MemoryStream.length_read]
    have hlen : b + (p + (Readable.read r₁.inner (r₁.clip n)).1.length) ≤ data.length := by
      have hle := (Readable.read r₁.inner (r₁.clip n)).2.position_le
      have hdata : (Readable.read r₁.inner (r₁.clip n)).2.data = data := h'.data_eq
      rw [hinner, h'.inner hpos, hdata] at hle
      omega
    refine ⟨hgot, ?_⟩
    exact { h' with
      data_eq := h'.data_eq
      position := by
        dsimp only
        rw [h'.position]
        omega
      inner := fun _ => by
        dsimp only
        rw [hinner, h'.inner hpos]
        omega
      fresh := fun hf => absurd (hpos.symm.trans hf) (by simp)
      p_le := hlen }

theorem target_eq (r : RangeStream MemoryStream) {offset : ℤ} (origin : SeekOrigin) (ho : -2 ^ 63 ≤ offset)
    (ho' : offset < 2 ^ 63) :
    (match origin with
      | .begin => offset
      | .current => toInt64 (r.position + offset)
      | .end => toInt64 ((if r.bounded then r.endPos - r.beginPos else IoStream.getLength r.inner) + offset)) =
      toInt64 (r.base origin + offset) := by
  match origin with
  | .begin =>
    have hsame : toInt64 offset = offset := Int.bmod_eq_of_le (by omega) (by omega)
    rw [base, Int.zero_add, hsame]
  | .current => rfl
  | .end => rfl

/-- **A seek** to a place that the inner stream has leads there; any other one changes nothing. -/
theorem InStep.seek (h : InStep data b e p r) (hdata : data.length < 2 ^ 63) {offset : ℤ} (origin : SeekOrigin)
    (ho : -2 ^ 63 ≤ offset) (ho' : offset < 2 ^ 63) :
    (∃ t : ℕ, r.base origin + offset = t ∧ b + t ≤ data.length ∧ (r.seek offset origin).1 = t ∧
        InStep data b e t (r.seek offset origin).2) ∨
      (¬(0 ≤ r.base origin + offset ∧ b + (r.base origin + offset) ≤ data.length) ∧
        r.seek offset origin = (-1, r)) := by
  have hbase : 0 ≤ r.base origin ∧ r.base origin < 2 ^ 63 := by
    have := h.p_le
    have := h.e_le
    have hlen := h.getLength
    rw [h.length_eq] at hlen
    match origin with
    | .begin =>
      rw [base]
      omega
    | .current =>
      rw [base, h.position]
      omega
    | .end =>
      rw [base, hlen]
      omega
  have hle := h.p_le
  unfold RangeStream.seek
  rw [target_eq r origin ho ho']
  obtain ⟨t, ht⟩ : ∃ t, t = r.base origin + offset := ⟨_, rfl⟩
  rw [← ht]
  obtain ⟨inner, bounded, beginPos, endPos, position, positioned⟩ := r
  obtain rfl : bounded = true := h.bounded
  obtain rfl : beginPos = b := h.beginPos
  dsimp only
  rw [if_pos rfl, if_pos rfl]
  obtain ⟨hlt, hsum⟩ | ⟨hbig, hneg⟩ := toInt64_cases (show -2 ^ 63 ≤ t by omega) (by omega)
  · rw [hsum]
    by_cases ht0 : t < 0
    · rw [if_pos ht0]
      exact .inr ⟨by omega, rfl⟩
    · rw [if_neg ht0]
      by_cases hin : b + t ≤ data.length
      · have hpos : b + t.toNat ≤ inner.data.length := by
          rw [show inner.data = data from h.data_eq]
          omega
        have hcast : toInt64 (b + t) = ((b + t.toNat : ℕ) : ℤ) := by
          rw [toInt64_of_lt (by omega) (by omega)]
          omega
        rw [hcast, seek_memory hpos]
        dsimp only
        rw [if_neg (by omega)]
        refine .inl ⟨t.toNat, by omega, by omega, by dsimp only; omega, ?_⟩
        exact { h with
          position := by dsimp only; omega
          inner := fun _ => rfl
          fresh := fun hf => absurd hf.symm Bool.false_ne_true
          p_le := by omega }
      · have hfail : toInt64 (b + t) < 0 ∨ (inner.data.length : ℤ) < toInt64 (b + t) := by
          rw [show inner.data = data from h.data_eq]
          obtain ⟨-, hsum'⟩ | ⟨-, hneg⟩ := toInt64_cases (show -2 ^ 63 ≤ (b + t : ℤ) by omega) (by omega)
          · rw [hsum']
            omega
          · exact .inl hneg
        rw [seek_memory_failed hfail]
        exact .inr ⟨fun hc => hin hc.2, rfl⟩
  · rw [if_pos hneg]
    exact .inr ⟨by omega, rfl⟩

/-! ## Sequences of calls -/

theorem InStep.after (h : InStep data b e p r) (hdata : data.length < 2 ^ 63) (c : RangeCall) :
    ∃ p', InStep data b e p' (r.after c) := by
  cases c with
  | read n lt => exact ⟨_, (h.read lt).2⟩
  | seek offset origin ge lt =>
    obtain ⟨t, -, -, -, ht⟩ | ⟨-, hfail⟩ := h.seek hdata origin ge lt
    · exact ⟨t, ht⟩
    · refine ⟨p, ?_⟩
      rw [RangeStream.after, hfail]
      exact h

theorem InStep.run (h : InStep data b e p r) (hdata : data.length < 2 ^ 63) (calls : List RangeCall) :
    ∃ p', InStep data b e p' (calls.foldl RangeStream.after r) := by
  induction calls generalizing r p with
  | nil => exact ⟨p, h⟩
  | cons c calls ih =>
    obtain ⟨p', h'⟩ := h.after hdata c
    exact ih h'

/-- **A range is its window.** After any calls, reads hand over the window at the position, a seek into the window
leads there, and one that fails changes nothing. -/
theorem range_follows_window {s : MemoryStream} (hdata : s.data.length < 2 ^ 63) (b e : ℕ) (calls : List RangeCall)
    {r : RangeStream MemoryStream} (hr : r = calls.foldl RangeStream.after (RangeStream.new s b e)) :
    0 ≤ r.position ∧ r.getLength = ((windowOf s.data b e).length : ℤ) ∧
      (∀ n < 2 ^ 63, (r.read n).1 = slice (windowOf s.data b e) r.position.toNat n ∧
        (r.read n).2.position = r.position + (r.read n).1.length) ∧
      ∀ (offset : ℤ) (origin : SeekOrigin), -2 ^ 63 ≤ offset → offset < 2 ^ 63 →
        (0 ≤ r.base origin + offset → r.base origin + offset ≤ (windowOf s.data b e).length →
          (r.seek offset origin).1 = r.base origin + offset) ∧
        ((r.seek offset origin).1 = -1 → (r.seek offset origin).2 = r) ∧
        ((r.seek offset origin).1 ≠ -1 → (r.seek offset origin).2.position = (r.seek offset origin).1) := by
  obtain ⟨p, hp⟩ := (inStep_new s b e).run hdata calls
  rw [← hr] at hp
  have hlen := hp.length_eq
  have hle := hp.le
  have hend := hp.e_le
  rw [windowOf_clipped]
  refine ⟨by rw [hp.position]; omega, hp.getLength, fun n hn => ?_, fun offset origin ho ho' => ?_⟩
  · obtain ⟨hread, hstep⟩ := hp.read hn
    rw [hp.position]
    exact ⟨hread, hstep.position⟩
  · obtain ⟨t, ht, -, hres, hstep⟩ | ⟨hout, hfail⟩ := hp.seek hdata origin ho ho'
    · refine ⟨fun _ _ => hres.trans ht.symm, fun h => ?_, fun _ => ?_⟩
      · rw [hres] at h
        omega
      · rw [hstep.position, hres]
    · rw [hfail]
      refine ⟨fun h0 hin => absurd ⟨h0, ?_⟩ hout, fun _ => rfl, fun h => absurd rfl h⟩
      rw [hlen] at hin
      omega

/-- The middle of them, after a seek that fails, one past the window and one back into it. -/
def middleRange : RangeStream MemoryStream :=
  [RangeCall.seek 9 .begin (by decide) (by decide), .seek 1 .end (by decide) (by decide),
    .seek (-2) .current (by decide) (by decide)].foldl RangeStream.after
    (RangeStream.new helloStream (1 : ℕ) (4 : ℕ))

theorem range_follows_window_middle : (middleRange.read 9).1 = ascii "l" ∧ (middleRange.seek 0 .end).1 = 3 := by
  have hdata : helloStream.data.length < 2 ^ 63 := by decide
  obtain ⟨-, -, hread, hseek⟩ := range_follows_window hdata 1 4 _ (show middleRange = _ from rfl)
  have hpos : middleRange.position.toNat = 2 := by decide
  obtain ⟨hr, -⟩ := hread 9 (by decide)
  obtain ⟨hs, -⟩ := hseek 0 .end (by decide) (by decide)
  rw [hr, hpos, hs (by decide) (by decide)]
  exact ⟨by decide, by decide⟩

end RangeStream

end Nhttp.Io
