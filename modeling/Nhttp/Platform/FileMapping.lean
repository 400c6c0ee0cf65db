import Nhttp.Io.RangeStream

/-!
# Windows of a mapped file

`file_mapping` on POSIX: one window of the file is mapped at a time, and `ensure_window` slides it.

* `Region`: what a successful `mmap` has put into memory; `Pointer.fileByte`: the octet behind a pointer.
* `FileMapping.Wf`: the window is a part of the file that starts at a page.
* **`ensureWindow_covers`**: what `ensure_window` returns.
-/

namespace Nhttp.Platform

open Io

/-- A part of a file in memory, as `mmap` was asked for it. -/
structure Region where
  address : ℕ
  start : ℤ
  size : ℤ
deriving DecidableEq, Repr

structure Pointer where
  region : Region
  displacement : ℤ
deriving DecidableEq, Repr

def Pointer.fileByte (p : Pointer) : ℤ := p.region.start + p.displacement

structure FileMapping where
  windowData : Option Region := none
  windowStart : ℤ := 0
  windowSize : ℤ := 0
  totalSize : ℤ := 0
  fd : ℤ := -1
deriving DecidableEq, Repr

namespace FileMapping

def windowCapacity : ℤ := 4 * 1024 * 1024

def valid (m : FileMapping) : Bool := decide (0 < m.totalSize)

/-- `open`, with the results of `open(2)` and `fstat(2)`. -/
def openFile (fd : ℤ) (stSize : Option ℤ) : FileMapping :=
  if fd < 0 then {}
  else match stSize with
    | none => {}
    | some size => if size ≤ 0 then {} else { fd := fd, totalSize := size }

/-- `remap`, with the address that `mmap(2)` returns; the region before is unmapped. -/
def remap (m : FileMapping) (mmap : Option ℕ) (alignedStart size : ℤ) : Bool × FileMapping :=
  match mmap with
  | none => (false, m)
  | some addr =>
    (true, { m with windowData := some ⟨addr, alignedStart, size⟩, windowStart := alignedStart, windowSize := size })

/-- The end of `ensure_window`: a new window around the request. -/
def slideWindow (m : FileMapping) (pageSize : ℤ) (mmap : Option ℕ) (offset length : ℤ) :
    Option Pointer × FileMapping :=
  let alignedStart := offset / pageSize * pageSize
  let wantSize := max windowCapacity (length + (offset - alignedStart))
  let wantSize := min wantSize (m.totalSize - alignedStart)
  match m.remap mmap alignedStart wantSize with
  | (false, m) => (none, m)
  | (true, m) => (m.windowData.map fun data => ⟨data, offset - m.windowStart⟩, m)

def ensureWindow (m : FileMapping) (pageSize : ℤ) (mmap : Option ℕ) (offset length : ℤ) :
    Option Pointer × FileMapping :=
  if m.fd < 0 ∨ offset < 0 ∨ length < 0 ∨ m.totalSize < toInt64 (offset + length) then (none, m)
  else
    match m.windowData with
    | some data =>
      if m.windowStart ≤ offset ∧ toInt64 (offset + length) ≤ m.windowStart + m.windowSize then
        (some ⟨data, offset - m.windowStart⟩, m)
      else m.slideWindow pageSize mmap offset length
    | none => m.slideWindow pageSize mmap offset length

/-! ## The window -/

structure Wf (pageSize : ℤ) (m : FileMapping) : Prop where
  start_nonneg : 0 ≤ m.windowStart
  aligned : pageSize ∣ m.windowStart
  le : m.windowStart + m.windowSize ≤ m.totalSize
  region : ∀ d ∈ m.windowData, d.start = m.windowStart ∧ d.size = m.windowSize

theorem wf_closed (pageSize : ℤ) : ({} : FileMapping).Wf pageSize :=
  ⟨le_rfl, dvd_zero _, le_rfl, fun d hd => by cases hd⟩

theorem wf_openFile (pageSize fd : ℤ) (stSize : Option ℤ) : (openFile fd stSize).Wf pageSize := by
  unfold openFile
  split_ifs
  · exact wf_closed pageSize
  · cases stSize with
    | none => exact wf_closed pageSize
    | some size =>
      dsimp only
      split_ifs with hsize
      · exact wf_closed pageSize
      · refine ⟨le_rfl, dvd_zero _, ?_, fun d hd => by cases hd⟩
        dsimp only
        omega

/-- The window contains the octets from `offset` on, and `p` points at the first of them. -/
structure Covers (m : FileMapping) (offset length : ℤ) (p : Pointer) : Prop where
  start_le : m.windowStart ≤ offset
  le_end : offset + length ≤ m.windowStart + m.windowSize
  region : m.windowData = some p.region
  fileByte : p.fileByte = offset

variable {pageSize : ℤ} {m : FileMapping} {offset length : ℤ}

theorem aligned_le (hpage : 0 < pageSize) (offset : ℤ) : offset / pageSize * pageSize ≤ offset :=
  Int.ediv_mul_le offset (by omega)

theorem aligned_nonneg (hpage : 0 < pageSize) (ho : 0 ≤ offset) : 0 ≤ offset / pageSize * pageSize :=
  Int.mul_nonneg (Int.ediv_nonneg ho hpage.le) hpage.le

/-- **A new window** covers the request; without a mapping nothing changes. -/
theorem slideWindow_spec (hpage : 0 < pageSize) (ho : 0 ≤ offset) (hend : offset + length ≤ m.totalSize)
    (mmap : Option ℕ) :
    (∃ p, (m.slideWindow pageSize mmap offset length).1 = some p ∧
        (m.slideWindow pageSize mmap offset length).2.Covers offset length p ∧
        (m.slideWindow pageSize mmap offset length).2.Wf pageSize) ∨
      m.slideWindow pageSize mmap offset length = (none, m) := by
  have hle := aligned_le hpage offset
  have hnonneg := aligned_nonneg hpage ho
  unfold slideWindow remap
  cases mmap with
  | none => exact .inr rfl
  | some addr =>
    refine .inl ⟨_, rfl, ⟨hle, ?_, rfl, ?_⟩, hnonneg, dvd_mul_left _ _, ?_, ?_⟩
    · dsimp only
      omega
    · rw [Pointer.fileByte]
      dsimp only
      omega
    · dsimp only
      omega
    · intro d hd
      cases hd
      exact ⟨rfl, rfl⟩

/-- **One call** covers the request or changes nothing, and keeps the window in order. -/
theorem Wf.ensureWindow (h : m.Wf pageSize) (hpage : 0 < pageSize) (hsum : -2 ^ 63 ≤ offset + length)
    (hsum' : offset + length < 2 ^ 63) (mmap : Option ℕ) :
    (∃ p, (m.ensureWindow pageSize mmap offset length).1 = some p ∧
        (m.ensureWindow pageSize mmap offset length).2.Covers offset length p ∧
        (m.ensureWindow pageSize mmap offset length).2.Wf pageSize) ∨
      m.ensureWindow pageSize mmap offset length = (none, m) := by
  have hwrap : toInt64 (offset + length) = offset + length := Int.bmod_eq_of_le (by omega) (by omega)
  unfold FileMapping.ensureWindow
  rw [hwrap]
  by_cases hbad : m.fd < 0 ∨ offset < 0 ∨ length < 0 ∨ m.totalSize < offset + length
  · rw [if_pos hbad]
    exact .inr rfl
  · rw [if_neg hbad]
    push Not at hbad
    obtain ⟨-, ho, -, hend⟩ := hbad
    cases hd : m.windowData with
    | none => exact slideWindow_spec hpage ho hend mmap
    | some data =>
      dsimp only
      by_cases hin : m.windowStart ≤ offset ∧ offset + length ≤ m.windowStart + m.windowSize
      · rw [if_pos hin]
        refine .inl ⟨_, rfl, ⟨hin.1, hin.2, hd, ?_⟩, h⟩
        obtain ⟨hstart, -⟩ := h.region data hd
        rw [Pointer.fileByte, hstart]
        dsimp only
        omega
      · rw [if_neg hin]
        exact slideWindow_spec hpage ho hend mmap

theorem ensureWindow_file (m : FileMapping) (pageSize : ℤ) (mmap : Option ℕ) (offset length : ℤ) :
    (m.ensureWindow pageSize mmap offset length).2.totalSize = m.totalSize ∧
      (m.ensureWindow pageSize mmap offset length).2.fd = m.fd := by
  have hslide : (m.slideWindow pageSize mmap offset length).2.totalSize = m.totalSize ∧
      (m.slideWindow pageSize mmap offset length).2.fd = m.fd := by
    cases mmap with
    | none => exact ⟨rfl, rfl⟩
    | some addr => exact ⟨rfl, rfl⟩
  unfold ensureWindow
  cases m.windowData with
  | none =>
    dsimp only
    split_ifs
    · exact ⟨rfl, rfl⟩
    · exact hslide
  | some data =>
    split_ifs
    · exact ⟨rfl, rfl⟩
    · exact ⟨rfl, rfl⟩
    · exact hslide

/-- **Inside an open file** only a failed `mmap` gives null. -/
theorem ensureWindow_ne_none (hfd : 0 ≤ m.fd) (ho : 0 ≤ offset) (hl : 0 ≤ length)
    (hend : offset + length ≤ m.totalSize) (htotal : m.totalSize < 2 ^ 63) (addr : ℕ) :
    (m.ensureWindow pageSize (some addr) offset length).1 ≠ none := by
  have hwrap : toInt64 (offset + length) = offset + length := toInt64_of_lt (by omega) (by omega)
  unfold ensureWindow
  rw [hwrap, if_neg (by omega)]
  cases m.windowData with
  | none => exact Option.some_ne_none _
  | some data =>
    split_ifs
    · exact Option.some_ne_none _
    · exact Option.some_ne_none _

/-! ## Sequences of calls -/

/-- A call, and what `mmap` returns if it is made. -/
structure WindowCall where
  offset : ℤ
  length : ℤ
  mmap : Option ℕ
  sum_ge : -2 ^ 63 ≤ offset + length
  sum_lt : offset + length < 2 ^ 63

def after (pageSize : ℤ) (m : FileMapping) (c : WindowCall) : FileMapping :=
  (m.ensureWindow pageSize c.mmap c.offset c.length).2

theorem Wf.run (h : m.Wf pageSize) (hpage : 0 < pageSize) (calls : List WindowCall) :
    (calls.foldl (after pageSize) m).Wf pageSize := by
  induction calls generalizing m with
  | nil => exact h
  | cons c calls ih =>
    apply ih
    unfold after
    obtain ⟨p, -, -, hwf⟩ | hnull := h.ensureWindow hpage c.sum_ge c.sum_lt c.mmap
    · exact hwf
    · rw [hnull]
      exact h

/-- **What `ensure_window` returns** after any calls: a pointer to the octet at `offset` in a window that contains the
request; or null, and nothing has changed. -/
theorem ensureWindow_covers (hpage : 0 < pageSize) (fd : ℤ) (stSize : Option ℤ) (calls : List WindowCall)
    (c : WindowCall) {m m' : FileMapping} {result : Option Pointer}
    (hm : m = calls.foldl (after pageSize) (openFile fd stSize))
    (hr : m.ensureWindow pageSize c.mmap c.offset c.length = (result, m')) :
    (∀ p ∈ result, m'.Covers c.offset c.length p ∧ 0 ≤ m'.windowStart ∧
        m'.windowStart + m'.windowSize ≤ m'.totalSize ∧ pageSize ∣ m'.windowStart) ∧
      (result = none → m' = m) := by
  have hwf : m.Wf pageSize := by
    rw [hm]
    exact (wf_openFile pageSize fd stSize).run hpage calls
  obtain ⟨p, hp, hcovers, hwf'⟩ | hnull := hwf.ensureWindow hpage c.sum_ge c.sum_lt c.mmap
  · rw [hr] at hp hcovers hwf'
    dsimp only at hp hcovers hwf'
    subst hp
    refine ⟨fun q hq => ?_, fun hnone => by cases hnone⟩
    cases hq
    exact ⟨hcovers, hwf'.start_nonneg, hwf'.le, hwf'.aligned⟩
  · rw [hr] at hnull
    cases hnull
    refine ⟨?_, fun _ => rfl⟩
    intro q hq
    cases hq

/-- A request in the second page of a small file, after one that fails. -/
theorem ensureWindow_covers_second :
    ((openFile 3 (some 10000)).ensureWindow 4096 (some 7) 5000 100).1 = some ⟨⟨7, 4096, 5904⟩, 904⟩ ∧
      ((openFile 3 (some 10000)).ensureWindow 4096 (some 7) 5000 100).2.Covers 5000 100 ⟨⟨7, 4096, 5904⟩, 904⟩ := by
  have hpage : (0 : ℤ) < 4096 := by decide
  refine ⟨by decide, ?_⟩
  obtain ⟨hsome, -⟩ := ensureWindow_covers hpage 3 (some 10000)
    [⟨9000, 2000, none, by decide, by decide⟩] ⟨5000, 100, some 7, by decide, by decide⟩ rfl rfl
  exact (hsome ⟨⟨7, 4096, 5904⟩, 904⟩ (by decide)).1

end FileMapping

end Nhttp.Platform
