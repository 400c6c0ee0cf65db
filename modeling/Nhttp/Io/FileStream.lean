import Nhttp.Io.RangeSeek
import Nhttp.Platform.FileMapping

/-!
# Files

`file_stream` over a file that does not change. Its position is that of the `FILE` up to the first read,
and a field of its own from then on if the file could be mapped.

* `CFile`: a `FILE` on a regular file; `MapSystem`: what the system answers to the calls that map it.
* `At`: the stream is at a position, in either mode; `at_open`, `At.read`, `At.seek`.
* `OpenFile`: a file that can be read, as a stream that holds its data (`OpenFile.holds`).
* **`mapped_eq_stdio_iff`**: both modes agree exactly if no seek after the first read leaves the file.
-/

namespace Nhttp.Io

open Octets Reading Slices Platform FileMapping

/-! ## Standard files -/

structure CFile where
  data : Bytes
  pos : ℕ := 0
deriving DecidableEq, Repr

namespace CFile

/-- The position from which an offset counts. -/
def base (f : CFile) : SeekOrigin → ℤ
  | .begin => 0
  | .current => f.pos
  | .end => f.data.length

/-- `fseeko`, and if it succeeded: any position that an `off_t` can hold. -/
def fseek (f : CFile) (offset : ℤ) (origin : SeekOrigin) : Bool × CFile :=
  let target := f.base origin + offset
  if 0 ≤ target ∧ target < 2 ^ 63 then (true, { f with pos := target.toNat }) else (false, f)

def ftell (f : CFile) : ℤ := f.pos

def fread (f : CFile) (n : ℕ) : Bytes × CFile :=
  (slice f.data f.pos n, { f with pos := f.pos + (slice f.data f.pos n).length })

end CFile

/-! ## The stream -/

structure MapSystem where
  pageSize : ℤ
  pageSize_pos : 0 < pageSize
  fd : ℤ
  fstat : Bool
  /-- The address for a window around an offset. -/
  mmap : ℤ → ℤ → Option ℕ

/-- The file can be opened for a mapping. -/
def MapSystem.opens (sys : MapSystem) : Bool := decide (0 ≤ sys.fd) && sys.fstat

/-- No window fails to be mapped. -/
def MapSystem.Maps (sys : MapSystem) : Prop := ∀ offset length, (sys.mmap offset length).isSome = true

/-- `file_stream`; its `size_` is the length of the data. -/
structure FileStream where
  system : MapSystem
  file : CFile
  mappingAttempted : Bool := false
  mapping : FileMapping := {}
  mappedPos : ℤ := 0

namespace FileStream

/-- `open` with mode `rb`. -/
def openRead (system : MapSystem) (data : Bytes) : FileStream where
  system := system
  file := { data := data }

def size (f : FileStream) : ℤ := f.file.data.length

def base (f : FileStream) : SeekOrigin → ℤ
  | .begin => 0
  | .current => f.mappedPos
  | .end => f.size

def seek (f : FileStream) (offset : ℤ) (origin : SeekOrigin) : ℤ × FileStream :=
  if f.mapping.valid then
    let target := toInt64 (f.base origin + offset)
    if target < 0 ∨ f.size < target then (-1, f) else (target, { f with mappedPos := target })
  else match f.file.fseek offset origin with
    | (false, file) => (-1, { f with file := file })
    | (true, file) => (file.ftell, { f with file := file })

/-- The first lines of `read`: the first call tries to map the file. -/
def probe (f : FileStream) : FileStream :=
  if f.mappingAttempted then f
  else if 0 < f.size then
    let mapping := FileMapping.openFile f.system.fd (if f.system.fstat then some f.size else none)
    if mapping.valid then { f with mappingAttempted := true, mapping := mapping, mappedPos := f.file.ftell }
    else { f with mappingAttempted := true, mapping := {}, mappedPos := 0 }
  else { f with mappingAttempted := true }

/-- The rest of `read`; no buffer has `2 ^ 63` octets, so that `n` is its own `int64_t`. -/
def fetch (f : FileStream) (n : ℕ) : Bytes × FileStream :=
  if f.mapping.valid then
    let remaining := f.size - f.mappedPos
    if remaining ≤ 0 then ([], f)
    else
      let want := min remaining n
      match f.mapping.ensureWindow f.system.pageSize (f.system.mmap f.mappedPos want) f.mappedPos want with
      | (none, mapping) => ([], { f with mapping := mapping })
      | (some src, mapping) =>
        (slice f.file.data src.fileByte.toNat want.toNat, { f with mapping := mapping, mappedPos := f.mappedPos + want })
  else
    let (got, file) := f.file.fread n
    (got, { f with file := file })

def read (f : FileStream) (n : ℕ) : Bytes × FileStream := f.probe.fetch n

/-! ## The position -/

/-- Where the next read starts. -/
def position (f : FileStream) : ℕ := if f.mapping.valid then f.mappedPos.toNat else f.file.pos

/-- The stream is at position `p`: in the file, or in the mapping once there is one. -/
structure At (sys : MapSystem) (data : Bytes) (p : ℕ) (f : FileStream) : Prop where
  system : f.system = sys
  data_eq : f.file.data = data
  mode : f.mapping.valid = (f.mappingAttempted && decide (0 < data.length) && sys.opens)
  wf : f.mapping.Wf sys.pageSize
  mapped : f.mapping.valid = true → f.mapping.totalSize = data.length ∧ 0 ≤ f.mapping.fd ∧ f.mappedPos = p
  stdio : f.mapping.valid = false → f.file.pos = p
  lt : p < 2 ^ 63

theorem at_open (sys : MapSystem) (data : Bytes) : At sys data 0 (openRead sys data) where
  system := rfl
  data_eq := rfl
  mode := rfl
  wf := wf_closed _
  mapped h := by cases h
  stdio _ := rfl
  lt := by decide

theorem openFile_spec (sys : MapSystem) {size : ℤ} (hsize : 0 < size) :
    (openFile sys.fd (if sys.fstat then some size else none)).valid = sys.opens ∧
      (sys.opens = true →
        (openFile sys.fd (if sys.fstat then some size else none)).totalSize = size ∧
          0 ≤ (openFile sys.fd (if sys.fstat then some size else none)).fd) := by
  unfold MapSystem.opens openFile
  obtain hfd | hfd := Int.lt_or_le sys.fd 0
  · rw [if_pos hfd, decide_eq_false (Int.not_le.mpr hfd)]
    exact ⟨rfl, fun h => by cases h⟩
  · rw [if_neg (Int.not_lt.mpr hfd), decide_eq_true hfd]
    cases sys.fstat with
    | false => exact ⟨rfl, fun h => by cases h⟩
    | true =>
      rw [if_pos rfl]
      dsimp only
      rw [if_neg (Int.not_le.mpr hsize)]
      exact ⟨decide_eq_true hsize, fun _ => ⟨rfl, hfd⟩⟩

variable {sys : MapSystem} {data : Bytes} {p : ℕ} {f : FileStream}

theorem At.position (h : At sys data p f) : f.position = p := by
  unfold FileStream.position
  split_ifs with hvalid
  · rw [(h.mapped hvalid).2.2, Int.toNat_natCast]
  · exact h.stdio (Bool.eq_false_iff.mpr hvalid)

theorem At.size (h : At sys data p f) : f.size = data.length := by
  rw [FileStream.size, h.data_eq]

theorem At.probe (h : At sys data p f) : At sys data p f.probe ∧ f.probe.mappingAttempted = true := by
  unfold FileStream.probe
  cases ha : f.mappingAttempted with
  | true => exact ⟨h, ha⟩
  | false =>
    have hinvalid : f.mapping.valid = false := by rw [h.mode, ha]; rfl
    rw [if_neg Bool.false_ne_true]
    by_cases hpos : 0 < f.size
    · obtain ⟨hopens, htotal⟩ := openFile_spec f.system hpos
      have hlen : 0 < data.length := by
        rw [h.size] at hpos
        omega
      rw [if_pos hpos]
      dsimp only
      by_cases hvalid : (openFile f.system.fd (if f.system.fstat then some f.size else none)).valid = true
      · -- the file is mapped from now on
        rw [if_pos hvalid]
        rw [hvalid] at hopens
        obtain ⟨htot, hfd⟩ := htotal hopens.symm
        refine ⟨⟨h.system, h.data_eq, ?_, wf_openFile _ _ _, fun _ => ?_, fun hno => ?_, h.lt⟩, rfl⟩
        · dsimp only
          rw [hvalid, ← h.system, ← hopens, decide_eq_true hlen]
          rfl
        · exact ⟨htot.trans h.size, hfd, congrArg Nat.cast (h.stdio hinvalid)⟩
        · dsimp only at hno
          rw [hvalid] at hno
          cases hno
      · rw [if_neg hvalid]
        refine ⟨⟨h.system, h.data_eq, ?_, wf_closed _, ?_, fun _ => h.stdio hinvalid, h.lt⟩, rfl⟩
        · dsimp only
          rw [← h.system, ← hopens, Bool.eq_false_iff.mpr hvalid, Bool.and_false]
          rfl
        · intro hno
          cases hno
    · have hlen : ¬0 < data.length := by
        rw [h.size] at hpos
        omega
      rw [if_neg hpos]
      refine ⟨⟨h.system, h.data_eq, ?_, h.wf, fun hyes => ?_, fun _ => h.stdio hinvalid, h.lt⟩, rfl⟩
      · dsimp only
        rw [hinvalid, decide_eq_false hlen]
        rfl
      · dsimp only at hyes
        rw [hinvalid] at hyes
        cases hyes

theorem At.fetch (h : At sys data p f) (hdata : data.length < 2 ^ 63) (hmaps : sys.opens = true → sys.Maps) (n : ℕ) :
    (f.fetch n).1 = slice data p n ∧ At sys data (p + (slice data p n).length) (f.fetch n).2 ∧
      (f.fetch n).2.mappingAttempted = f.mappingAttempted := by
  have hlt := h.lt
  have hlen := length_slice data p n
  unfold FileStream.fetch
  dsimp only
  cases hvalid : f.mapping.valid with
  | false =>
    rw [if_neg Bool.false_ne_true, CFile.fread, h.data_eq, h.stdio hvalid]
    refine ⟨rfl, ⟨h.system, rfl, h.mode, h.wf, fun hyes => ?_, fun _ => rfl, by omega⟩, rfl⟩
    rw [hvalid] at hyes
    cases hyes
  | true =>
    obtain ⟨htotal, hfd, hpos⟩ := h.mapped hvalid
    rw [if_pos rfl, h.size, hpos]
    split_ifs with hrem
    · rw [slice_of_length_le (by omega)]
      exact ⟨rfl, h, rfl⟩
    · have hopens : sys.opens = true := by
        have hmode := h.mode
        rw [hvalid] at hmode
        exact (Bool.and_eq_true_iff.mp hmode.symm).2
      obtain ⟨want, hwant⟩ : ∃ want : ℕ, want = min n (data.length - p) := ⟨_, rfl⟩
      have hwant' : min ((data.length : ℤ) - p) n = want := by omega
      rw [hwant', h.system]
      obtain ⟨addr, haddr⟩ := Option.isSome_iff_exists.mp (hmaps hopens p want)
      obtain ⟨htotal', hfd'⟩ := f.mapping.ensureWindow_file sys.pageSize (some addr) p want
      rw [haddr]
      have hsum : -2 ^ 63 ≤ (p : ℤ) + want := by omega
      have hsum' : (p : ℤ) + want < 2 ^ 63 := by omega
      obtain ⟨src, hsrc, hcovers, hwf⟩ | hnull := h.wf.ensureWindow sys.pageSize_pos hsum hsum' (some addr)
      · rcases hr : f.mapping.ensureWindow sys.pageSize (some addr) p want with ⟨result, mapping⟩
        rw [hr] at hsrc hcovers hwf htotal' hfd'
        dsimp only at hsrc hcovers hwf htotal' hfd'
        subst hsrc
        have hlen' : (slice data p n).length = want := by omega
        have hbytes : slice data p want = slice data p n := by rw [hwant, slice_min]
        have hkept : mapping.valid = f.mapping.valid := by
          unfold valid
          rw [htotal']
        dsimp only
        rw [hcovers.fileByte, Int.toNat_natCast, Int.toNat_natCast, h.data_eq, hbytes, hlen']
        refine ⟨rfl, ⟨rfl, h.data_eq, hkept.trans h.mode, hwf, fun _ => ⟨htotal'.trans htotal, ?_,
          (Nat.cast_add p want).symm⟩, fun hno => ?_, by omega⟩, rfl⟩
        · rw [hfd']
          exact hfd
        · dsimp only at hno
          rw [hkept, hvalid] at hno
          cases hno
      · refine absurd (congrArg Prod.fst hnull) ?_
        exact ensureWindow_ne_none hfd (by omega) (by omega) (by omega) (by omega) addr

theorem At.read (h : At sys data p f) (hdata : data.length < 2 ^ 63) (hmaps : sys.opens = true → sys.Maps) (n : ℕ) :
    (f.read n).1 = slice data p n ∧ At sys data (p + (slice data p n).length) (f.read n).2 ∧
      (f.read n).2.mappingAttempted = true := by
  obtain ⟨hprobe, hattempted⟩ := h.probe
  obtain ⟨hout, hat, hkept⟩ := hprobe.fetch hdata hmaps n
  exact ⟨hout, hat, hkept.trans hattempted⟩

/-! ## As a body -/

theorem probe_of_attempted (h : f.mappingAttempted = true) : f.probe = f := if_pos h

theorem attempted_probe (f : FileStream) : f.probe.mappingAttempted = true := by
  unfold FileStream.probe
  by_cases ha : f.mappingAttempted = true
  · rw [if_pos ha]
    exact ha
  · rw [if_neg ha]
    by_cases hpos : 0 < f.size
    · rw [if_pos hpos]
      by_cases hvalid : (openFile f.system.fd (if f.system.fstat then some f.size else none)).valid = true
      · rw [if_pos hvalid]
      · rw [if_neg hvalid]
    · rw [if_neg hpos]

/-- The octets behind the position. -/
def left (f : FileStream) : ℕ :=
  if f.mapping.valid then (f.size - f.mappedPos).toNat else f.file.data.length - f.file.pos

theorem left_fetch (f : FileStream) (n : ℕ) (h : (f.fetch n).1 ≠ []) :
    (f.fetch n).2.left < f.left ∧ (f.fetch n).2.mappingAttempted = f.mappingAttempted := by
  have hpos := List.length_pos_iff.mpr h
  unfold fetch at hpos ⊢
  unfold left
  dsimp only at hpos ⊢
  by_cases hvalid : f.mapping.valid = true
  · rw [if_pos hvalid] at hpos
    rw [if_pos hvalid, if_pos hvalid]
    by_cases hrem : f.size - f.mappedPos ≤ 0
    · rw [if_pos hrem] at hpos
      exact absurd hpos (Nat.lt_irrefl 0)
    · obtain ⟨want, hwant⟩ : ∃ want, want = min (f.size - f.mappedPos) (n : ℤ) := ⟨_, rfl⟩
      obtain ⟨htotal, -⟩ := f.mapping.ensureWindow_file f.system.pageSize (f.system.mmap f.mappedPos want)
        f.mappedPos want
      rw [if_neg hrem, ← hwant] at hpos
      rw [if_neg hrem, ← hwant]
      rcases hr : f.mapping.ensureWindow f.system.pageSize (f.system.mmap f.mappedPos want) f.mappedPos want with
        ⟨_ | src, mapping⟩
      · rw [hr] at hpos
        exact absurd hpos (Nat.lt_irrefl 0)
      · rw [hr] at hpos htotal
        rw [length_slice] at hpos
        have hkept : mapping.valid = true := by
          rw [← hvalid, valid, htotal]
          rfl
        rw [if_pos hkept]
        refine ⟨?_, rfl⟩
        change (f.size - (f.mappedPos + want)).toNat < (f.size - f.mappedPos).toNat
        omega
  · rw [if_neg hvalid, CFile.fread] at hpos
    rw [length_slice] at hpos
    rw [if_neg hvalid, if_neg hvalid, CFile.fread]
    dsimp only
    rw [if_neg hvalid, length_slice]
    refine ⟨?_, rfl⟩
    omega

theorem left_read (f : FileStream) (n : ℕ) (h : (f.read n).1 ≠ []) :
    (f.read n).2.probe.left < f.probe.left := by
  obtain ⟨hlt, hkept⟩ := f.probe.left_fetch n h
  rw [read, probe_of_attempted (hkept.trans f.attempted_probe)]
  exact hlt

instance : Readable FileStream UInt8 where
  read := FileStream.read
  weight f := f.probe.left
  weight_read := left_read

/-- **The octets behind the position** are read in order, in either mode. -/
theorem At.yields (h : At sys data p f) (hdata : data.length < 2 ^ 63) (hmaps : sys.opens = true → sys.Maps)
    (m : ℕ) : Yields m f (data.drop p) := by
  refine ⟨fun f xs => ∃ p, At sys data p f ∧ xs = data.drop p, ⟨p, h, rfl⟩, ?_⟩
  rintro f _ n ⟨p, h, rfl⟩ hn -
  obtain ⟨hout, hat, -⟩ := h.read hdata hmaps n
  change ((f.read n).1.length ≤ n ∧ ((f.read n).1 = [] → _) ∧ ∃ ys, (f.read n).1 ++ ys = _ ∧ _)
  rw [hout]
  refine ⟨(length_slice data p n).trans_le (Nat.min_le_left _ _), fun hnil => ?_, _, slice_append_drop data p n,
    _, hat, rfl⟩
  have hlen := congrArg List.length hnil
  rw [length_slice, List.length_nil] at hlen
  exact List.drop_eq_nil_of_le (by omega)

/-! ## Seeks -/

def target (size p : ℕ) (offset : ℤ) : SeekOrigin → ℤ
  | .begin => offset
  | .current => p + offset
  | .end => size + offset

theorem At.seek (h : At sys data p f) (hdata : data.length < 2 ^ 63) {offset : ℤ} (hge : -2 ^ 63 ≤ offset)
    (hlt : offset < 2 ^ 63) (origin : SeekOrigin) :
    (f.seek offset origin).2.mappingAttempted = f.mappingAttempted ∧
      if 0 ≤ target data.length p offset origin ∧ target data.length p offset origin < 2 ^ 63 ∧
          (f.mapping.valid = true → target data.length p offset origin ≤ data.length) then
        (f.seek offset origin).1 = target data.length p offset origin ∧
          At sys data (target data.length p offset origin).toNat (f.seek offset origin).2
      else (f.seek offset origin).1 = -1 ∧ At sys data p (f.seek offset origin).2 := by
  have hp := h.lt
  obtain ⟨t, ht⟩ : ∃ t, t = target data.length p offset origin := ⟨_, rfl⟩
  have hrange : -2 ^ 63 ≤ t ∧ t < 2 ^ 64 := by
    rw [ht]
    cases origin <;> unfold target <;> dsimp only <;> omega
  rw [← ht]
  unfold FileStream.seek
  cases hvalid : f.mapping.valid with
  | true =>
    obtain ⟨htotal, hfd, hpos⟩ := h.mapped hvalid
    have hbase : f.base origin + offset = t := by
      rw [ht]
      cases origin
      · exact Int.zero_add offset
      · exact congrArg (· + offset) hpos
      · exact congrArg (· + offset) h.size
    rw [if_pos rfl]
    dsimp only
    rw [hbase, h.size]
    obtain ⟨hsmall, hwrap⟩ | ⟨hbig, hwrap⟩ := toInt64_cases hrange.1 hrange.2
    · rw [hwrap]
      by_cases hin : 0 ≤ t ∧ t ≤ data.length
      · rw [if_neg (by omega), if_pos ⟨hin.1, hsmall, fun _ => hin.2⟩]
        refine ⟨rfl, rfl, h.system, h.data_eq, h.mode, h.wf, fun _ => ⟨htotal, hfd, ?_⟩, fun hno => ?_, by omega⟩
        · exact (Int.toNat_of_nonneg hin.1).symm
        · dsimp only at hno
          rw [hvalid] at hno
          cases hno
      · rw [if_pos (by omega), if_neg (fun hall => hin ⟨hall.1, hall.2.2 rfl⟩)]
        exact ⟨rfl, rfl, h⟩
    · rw [if_pos (.inl hwrap), if_neg (by omega)]
      exact ⟨rfl, rfl, h⟩
  | false =>
    have hbase : f.file.base origin + offset = t := by
      rw [ht]
      cases origin
      · exact Int.zero_add offset
      · exact congrArg (fun q : ℕ => (q : ℤ) + offset) (h.stdio hvalid)
      · exact congrArg (fun bs : Bytes => (bs.length : ℤ) + offset) h.data_eq
    rw [if_neg Bool.false_ne_true, CFile.fseek, hbase]
    by_cases hin : 0 ≤ t ∧ t < 2 ^ 63
    · rw [if_pos hin, if_pos ⟨hin.1, hin.2, fun hno => by cases hno⟩]
      refine ⟨rfl, Int.toNat_of_nonneg hin.1, h.system, h.data_eq, h.mode, h.wf, fun hyes => ?_, fun _ => rfl,
        by omega⟩
      dsimp only at hyes
      rw [hvalid] at hyes
      cases hyes
    · rw [if_neg hin, if_neg (fun hall => hin ⟨hall.1, hall.2.1⟩)]
      exact ⟨rfl, rfl, h⟩

theorem At.seek_inside (h : At sys data p f) (hdata : data.length < 2 ^ 63) {offset : ℤ} (hge : -2 ^ 63 ≤ offset)
    (hlt : offset < 2 ^ 63) {origin : SeekOrigin}
    (hin : 0 ≤ target data.length p offset origin ∧ target data.length p offset origin ≤ data.length) :
    At sys data (target data.length p offset origin).toNat (f.seek offset origin).2 := by
  have hseek := (h.seek hdata hge hlt origin).2
  rw [if_pos ⟨hin.1, by omega, fun _ => hin.2⟩] at hseek
  exact hseek.2

theorem At.exists_seek (h : At sys data p f) (hdata : data.length < 2 ^ 63) {offset : ℤ} (hge : -2 ^ 63 ≤ offset)
    (hlt : offset < 2 ^ 63) (origin : SeekOrigin) : ∃ p', At sys data p' (f.seek offset origin).2 := by
  have hseek := (h.seek hdata hge hlt origin).2
  split_ifs at hseek
  · exact ⟨_, hseek.2⟩
  · exact ⟨_, hseek.2⟩

/-! ## Calls -/

/-- A call, with any offset that an `int64_t` can hold. -/
inductive FileCall where
  | read (n : ℕ)
  | seek (offset : ℤ) (origin : SeekOrigin) (ge : -2 ^ 63 ≤ offset) (lt : offset < 2 ^ 63)

inductive FileResult where
  | octets (bs : Bytes)
  | position (pos : ℤ)
deriving DecidableEq

def call (f : FileStream) : FileCall → FileResult × FileStream
  | .read n => (.octets (f.read n).1, (f.read n).2)
  | .seek offset origin _ _ => (.position (f.seek offset origin).1, (f.seek offset origin).2)

def results (f : FileStream) : List FileCall → List FileResult
  | [] => []
  | c :: cs => (f.call c).1 :: (f.call c).2.results cs

def after (f : FileStream) (cs : List FileCall) : FileStream := cs.foldl (fun f c => (f.call c).2) f

theorem At.after (h : At sys data p f) (hdata : data.length < 2 ^ 63) (hmaps : sys.opens = true → sys.Maps)
    (cs : List FileCall) : ∃ p', At sys data p' (f.after cs) := by
  induction cs generalizing f p with
  | nil => exact ⟨p, h⟩
  | cons c cs ih =>
    cases c with
    | read n => exact ih (h.read hdata hmaps n).2.1
    | seek offset origin hge hlt =>
      obtain ⟨_, hat⟩ := h.exists_seek hdata hge hlt origin
      exact ih hat

/-! ## Both modes -/

/-- From position `p` on, no seek leaves the file once something has been read; the first read maps it. -/
def StaysInside (size : ℕ) (mapped : Bool) (p : ℕ) : List FileCall → Prop
  | [] => True
  | .read n :: cs => StaysInside size (decide (0 < size)) (p + min n (size - p)) cs
  | .seek offset origin _ _ :: cs =>
    if 0 ≤ target size p offset origin ∧ target size p offset origin < 2 ^ 63 then
      (mapped = true → target size p offset origin ≤ size) ∧
        StaysInside size mapped (target size p offset origin).toNat cs
    else StaysInside size mapped p cs

instance decidableStaysInside (size : ℕ) : ∀ mapped p cs, Decidable (StaysInside size mapped p cs)
  | _, _, [] => isTrue trivial
  | _, p, .read n :: cs => decidableStaysInside size (decide (0 < size)) (p + min n (size - p)) cs
  | mapped, p, .seek offset origin _ _ :: cs =>
    have := decidableStaysInside size mapped (target size p offset origin).toNat cs
    have := decidableStaysInside size mapped p cs
    inferInstanceAs (Decidable (if 0 ≤ target size p offset origin ∧ target size p offset origin < 2 ^ 63 then _
      else _))

theorem results_eq_iff {sys' : MapSystem} {f' : FileStream} (hdata : data.length < 2 ^ 63)
    (hopens : sys.opens = true) (hmaps : sys.Maps) (hfails : sys'.opens = false) (h : At sys data p f)
    (h' : At sys' data p f') (cs : List FileCall) :
    f.results cs = f'.results cs ↔ StaysInside data.length f.mapping.valid p cs := by
  induction cs generalizing f f' p with
  | nil => exact iff_of_true rfl trivial
  | cons c cs ih =>
    have hstdio : f'.mapping.valid = false := by
      rw [h'.mode, hfails, Bool.and_false]
    cases c with
    | read n =>
      obtain ⟨hout, hat, hattempted⟩ := h.read hdata (fun _ => hmaps) n
      obtain ⟨hout', hat', -⟩ := h'.read hdata (fun hyes => by rw [hfails] at hyes; cases hyes) n
      have hmode := hat.mode
      rw [hattempted, hopens, Bool.true_and, Bool.and_true] at hmode
      rw [length_slice] at hat hat'
      rw [results, results, call, call, hout, hout', StaysInside, ← hmode, List.cons.injEq, ← ih hat hat']
      exact and_iff_right rfl
    | seek offset origin hge hlt =>
      obtain ⟨hkept, hseek⟩ := h.seek hdata hge hlt origin
      obtain ⟨-, hseek'⟩ := h'.seek hdata hge hlt origin
      have hvalid : ∀ {p'}, At sys data p' (f.seek offset origin).2 →
          (f.seek offset origin).2.mapping.valid = f.mapping.valid := fun hat => by
        rw [hat.mode, h.mode, hkept]
      rw [results, results, call, call, StaysInside, List.cons.injEq, FileResult.position.injEq]
      generalize target data.length p offset origin = t at hseek hseek' ⊢
      by_cases hin : 0 ≤ t ∧ t < 2 ^ 63
      · rw [if_pos hin]
        rw [if_pos ⟨hin.1, hin.2, fun hyes => by rw [hstdio] at hyes; cases hyes⟩] at hseek'
        obtain ⟨hpos', hat'⟩ := hseek'
        by_cases hsize : f.mapping.valid = true → t ≤ data.length
        · rw [if_pos ⟨hin.1, hin.2, hsize⟩] at hseek
          obtain ⟨hpos, hat⟩ := hseek
          rw [hpos, hpos', ih hat hat', hvalid hat]
          exact and_congr (iff_of_true rfl hsize) Iff.rfl
        · rw [if_neg fun hall => hsize hall.2.2] at hseek
          refine iff_of_false (fun heq => ?_) fun hall => hsize hall.1
          omega
      · rw [if_neg hin]
        rw [if_neg fun hall => hin ⟨hall.1, hall.2.1⟩] at hseek hseek'
        obtain ⟨hpos, hat⟩ := hseek
        obtain ⟨hpos', hat'⟩ := hseek'
        rw [hpos, hpos', ih hat hat', hvalid hat]
        exact and_iff_right rfl

/-- **With and without a mapping** all positions and octets are the same exactly if no seek after the first read
leaves the file. -/
theorem mapped_eq_stdio_iff (hdata : data.length < 2 ^ 63) {stdio : MapSystem} (hopens : sys.opens = true)
    (hmaps : sys.Maps) (hfails : stdio.opens = false) (cs : List FileCall) :
    (openRead sys data).results cs = (openRead stdio data).results cs ↔ StaysInside data.length false 0 cs :=
  results_eq_iff hdata hopens hmaps hfails (at_open sys data) (at_open stdio data) cs

/-- Pages of 4096 octets, and every window at the same address. -/
def mappingSystem : MapSystem := ⟨4096, by decide, 3, true, fun _ _ => some 0⟩

/-- The second `open` of the file fails. -/
def stdioSystem : MapSystem := ⟨4096, by decide, -1, true, fun _ _ => none⟩

/-- Past the end before the first read, back into the file, and to its end after it. -/
theorem mapped_eq_stdio_hello :
    (openRead mappingSystem (ascii "hello")).results
        [.seek 9 .begin (by decide) (by decide), .seek (-6) .current (by decide) (by decide), .read 1,
          .seek 0 .end (by decide) (by decide)] =
      (openRead stdioSystem (ascii "hello")).results
        [.seek 9 .begin (by decide) (by decide), .seek (-6) .current (by decide) (by decide), .read 1,
          .seek 0 .end (by decide) (by decide)] :=
  (mapped_eq_stdio_iff (by decide) rfl (fun _ _ => rfl) rfl _).mpr (by decide)

/-- A seek past the end after a read. -/
theorem mapped_refuses_seek :
    (openRead mappingSystem (ascii "hello")).results [.read 1, .seek 6 .begin (by decide) (by decide)] =
        [.octets (ascii "h"), .position (-1)] ∧
      (openRead stdioSystem (ascii "hello")).results [.read 1, .seek 6 .begin (by decide) (by decide)] =
        [.octets (ascii "h"), .position 6] := by
  decide +kernel

end FileStream

/-! ## Files that can be read -/

/-- An open file on which no mapping fails. -/
structure OpenFile (sys : MapSystem) (data : Bytes) where
  stream : FileStream
  somewhere : ∃ p, FileStream.At sys data p stream
  small : data.length < 2 ^ 63
  maps : sys.opens = true → sys.Maps

namespace OpenFile

variable {sys : MapSystem} {data : Bytes}

def contents (f : OpenFile sys data) : Bytes := data.drop f.stream.position

def read (f : OpenFile sys data) (n : ℕ) : Bytes × OpenFile sys data :=
  ((f.stream.read n).1,
    { f with
      stream := (f.stream.read n).2
      somewhere := f.somewhere.elim fun _ h => ⟨_, (h.read f.small f.maps n).2.1⟩ })

/-- The offset is an `int64_t`. -/
def seek (f : OpenFile sys data) (offset : ℤ) (origin : SeekOrigin) : ℤ × OpenFile sys data :=
  ((f.stream.seek (toInt64 offset) origin).1,
    { f with
      stream := (f.stream.seek (toInt64 offset) origin).2
      somewhere := f.somewhere.elim fun _ h => h.exists_seek f.small (le_toInt64 _) (toInt64_lt _) origin })

theorem read_spec (f : OpenFile sys data) (n : ℕ) :
    (f.read n).1 = slice data f.stream.position n ∧
      (f.read n).2.contents = data.drop (f.stream.position + (slice data f.stream.position n).length) := by
  obtain ⟨p, h⟩ := f.somewhere
  obtain ⟨hout, hat, -⟩ := h.read f.small f.maps n
  rw [h.position]
  exact ⟨hout, congrArg data.drop hat.position⟩

theorem read_append (f : OpenFile sys data) (n : ℕ) : (f.read n).1 ++ (f.read n).2.contents = f.contents := by
  obtain ⟨hout, hrest⟩ := f.read_spec n
  rw [hout, hrest, slice_append_drop]
  rfl

theorem length_read (f : OpenFile sys data) (n : ℕ) :
    (f.read n).1.length = min n (data.length - f.stream.position) := by
  rw [(f.read_spec n).1, length_slice]

instance : IoStream (OpenFile sys data) where
  getLength f := f.stream.size
  seek := seek

instance : Source (OpenFile sys data) UInt8 where
  read := read
  weight f := f.contents.length
  weight_read := length_contents_lt contents (fun f n _ => read_append f n)
    (fun f n => (length_read f n).trans_le (min_le_left _ _))
  contents := contents
  read_append f n _ := read_append f n
  contents_read_zero f := ⟨_, read_append f 0⟩
  contents_of_read_nil f n hn h := by
    have hlen := length_read f n
    rw [h, List.length_nil] at hlen
    exact List.drop_eq_nil_of_le (by omega)
  length_read_le f n := (length_read f n).trans_le (min_le_left _ _)

/-- **A file holds its data**, wherever it stands and in either mode. -/
theorem holds (f : OpenFile sys data) : Holds f data where
  length := f.somewhere.elim fun _ h => h.size
  seek p hp := by
    obtain ⟨q, h⟩ := f.somewhere
    have hsmall := f.small
    have hlt : (p : ℤ) < 2 ^ 63 := by omega
    have hseek := h.seek_inside f.small (by omega) hlt (show 0 ≤ FileStream.target data.length q p .begin ∧ _ by
      rw [FileStream.target]
      omega)
    change data.drop (f.stream.seek (toInt64 p) .begin).2.position = data.drop p
    rw [toInt64_of_lt (by omega) hlt, hseek.position, FileStream.target, Int.toNat_natCast]

end OpenFile

end Nhttp.Io
