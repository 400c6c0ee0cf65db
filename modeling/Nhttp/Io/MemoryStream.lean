import Nhttp.Io.RangeStream

/-!
# Octets in memory

* `MemoryStream`: `memory_stream`, without its writes.
* `MemoryStream.holds`: a new one holds its octets.
-/

namespace Nhttp.Io

open Octets Reading

structure MemoryStream where
  data : Bytes
  position : ℕ := 0
  position_le : position ≤ data.length := by omega
deriving DecidableEq

/-- Five octets. -/
def helloStream : MemoryStream := { data := ascii "hello" }

namespace MemoryStream

theorem seek_le {s : MemoryStream} {target : ℤ} (h : ¬(target < 0 ∨ (s.data.length : ℤ) < target)) :
    target.toNat ≤ s.data.length := by
  omega

def seek (s : MemoryStream) (offset : ℤ) (origin : SeekOrigin) : ℤ × MemoryStream :=
  let target := match origin with
    | .begin => offset
    | .current => toInt64 (s.position + offset)
    | .end => toInt64 (s.data.length + offset)
  if h : target < 0 ∨ (s.data.length : ℤ) < target then (-1, s)
  else (target, { s with position := target.toNat, position_le := seek_le h })

def read (s : MemoryStream) (n : ℕ) : Bytes × MemoryStream :=
  let toCopy := min n (s.data.length - s.position)
  ((s.data.drop s.position).take toCopy,
    { s with position := s.position + toCopy, position_le := by have := s.position_le; omega })

instance : IoStream MemoryStream where
  getLength s := s.data.length
  seek := seek

/-- What has not been read. -/
def contents (s : MemoryStream) : Bytes := s.data.drop s.position

theorem read_append (s : MemoryStream) (n : ℕ) : (s.read n).1 ++ (s.read n).2.contents = s.contents := by
  unfold read contents
  rw [← List.drop_drop, List.take_append_drop]

theorem length_read (s : MemoryStream) (n : ℕ) : (s.read n).1.length = min n (s.data.length - s.position) := by
  unfold read
  rw [List.length_take, List.length_drop]
  omega

instance : Source MemoryStream UInt8 where
  read := read
  weight s := s.contents.length
  weight_read := length_contents_lt contents (fun s n _ => read_append s n)
    (fun s n => (length_read s n).trans_le (min_le_left _ _))
  contents := contents
  read_append s n _ := read_append s n
  contents_read_zero s := ⟨_, read_append s 0⟩
  contents_of_read_nil s n hn h := by
    have hlen := length_read s n
    rw [h, List.length_nil] at hlen
    exact List.drop_eq_nil_of_le (by omega)
  length_read_le s n := (length_read s n).trans_le (min_le_left _ _)

theorem holds (data : Bytes) : Holds ({ data := data } : MemoryStream) data where
  length := rfl
  seek p hp := by
    have hrange : ¬((p : ℤ) < 0 ∨ (data.length : ℤ) < p) := by omega
    change (MemoryStream.seek _ _ _).2.contents = _
    unfold seek
    rw [dif_neg hrange]
    rfl

end MemoryStream

end Nhttp.Io
