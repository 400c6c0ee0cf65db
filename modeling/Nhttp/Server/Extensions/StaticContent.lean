import Nhttp.Server.Http1Io

/-!
# What the extensions for files share

* `qualifyRelativePath`: the segments of a path with `.` and `..` resolved.
* `parseDigits`, `parseRangeHeader`: a byte range out of a `Range` field.
-/

namespace Nhttp.Server

open Octets List

/-! ## Paths -/

/-- The loop over the segments, with the stack of those that are kept; `none` if a `..` finds it empty. -/
def qualifySegments (stack : List Bytes) : List Bytes → Option (List Bytes)
  | [] => some stack
  | seg :: segs =>
    if seg = ascii ".." then
      if stack = [] then none else qualifySegments stack.dropLast segs
    else if seg ≠ [] ∧ seg ≠ ascii "." then qualifySegments (stack ++ [seg]) segs
    else qualifySegments stack segs

def joinSegments (stack : List Bytes) : Bytes :=
  stack.foldl (fun out s => (if out ≠ [] then out ++ [0x2f] else out) ++ s) []

/-- `qualify_relative_path`; the segments are what stands between slashes. -/
def qualifyRelativePath (path : Bytes) : Option Bytes :=
  (qualifySegments [] (path.splitOn 0x2f)).map joinSegments

/-- What `qualify_relative_path` keeps: no `.` and `..`, not empty, and without a slash. -/
def Ordinary (seg : Bytes) : Prop := seg ≠ [] ∧ seg ≠ ascii "." ∧ seg ≠ ascii ".." ∧ 0x2f ∉ seg

theorem not_mem_of_mem_splitOn {path seg : Bytes} (h : seg ∈ path.splitOn 0x2f) : 0x2f ∉ seg := by
  induction path generalizing seg with
  | nil =>
    rw [splitOn_nil, mem_singleton] at h
    simp [h]
  | cons c path ih =>
    rw [splitOn_cons_eq_if_modifyHead] at h
    split_ifs at h with hc
    · obtain rfl | h := mem_cons.mp h
      · exact not_mem_nil
      · exact ih h
    · have hc' : c ≠ 0x2f := by simpa using hc
      cases hs : path.splitOn 0x2f with
      | nil => exact absurd hs (splitOn_ne_nil _ _)
      | cons head segs =>
        rw [hs, modifyHead_cons] at h
        obtain rfl | h := mem_cons.mp h
        · exact fun hm => (mem_cons.mp hm).elim (fun e => hc' e.symm) (ih (by rw [hs]; exact mem_cons_self))
        · exact ih (by rw [hs]; exact mem_cons_of_mem _ h)

theorem ordinary_of_qualifySegments {stack segs out : List Bytes} (hstack : ∀ s ∈ stack, Ordinary s)
    (hsegs : ∀ s ∈ segs, 0x2f ∉ s) (h : qualifySegments stack segs = some out) : ∀ s ∈ out, Ordinary s := by
  induction segs generalizing stack with
  | nil =>
    cases h
    exact hstack
  | cons seg segs ih =>
    have hsegs' := fun s hs => hsegs s (mem_cons_of_mem _ hs)
    rw [qualifySegments] at h
    split_ifs at h with hup _ hkeep
    · exact ih (fun s hs => hstack s (mem_of_mem_dropLast hs)) hsegs' h
    · refine ih (fun s hs => ?_) hsegs' h
      obtain hs | hs := mem_append.mp hs
      · exact hstack s hs
      · rw [mem_singleton.mp hs]
        exact ⟨hkeep.1, hkeep.2, hup, hsegs seg mem_cons_self⟩
    · exact ih hstack hsegs' h

theorem joinSegments_concat (stack : List Bytes) (s : Bytes) : ∃ front, joinSegments (stack ++ [s]) = front ++ s :=
  ⟨_, by rw [joinSegments, foldl_append]; rfl⟩

theorem getLast_of_qualifyRelativePath {path q : Bytes} (h : qualifyRelativePath path = some q) :
    q.getLast? ≠ some 0x2f := by
  obtain ⟨stack, hstack, rfl⟩ := Option.map_eq_some_iff.mp h
  have hord := ordinary_of_qualifySegments (fun s hs => absurd hs not_mem_nil)
    (fun s hs => not_mem_of_mem_splitOn hs) hstack
  obtain rfl | ⟨front, s, rfl⟩ := eq_nil_or_concat stack
  · simp [joinSegments]
  · obtain ⟨hne, -, -, hs⟩ := hord s (by simp)
    rw [concat_eq_append]
    obtain ⟨f, hf⟩ := joinSegments_concat front s
    rw [hf, getLast?_append_of_ne_nil _ hne]
    exact fun hl => hs (mem_of_getLast? hl)

/-! ## Ranges -/

/-- `parse_digits`: the same loop as for a `Content-Length`. -/
def parseDigits (digits : Bytes) : Option ℤ := parseContentLength 0 digits

structure RangeRequest where
  present : Bool := false
  satisfiable : Bool := true
  begin : ℤ := 0
  /-- Inclusive. -/
  last : ℤ := 0
deriving DecidableEq

/-- The checks after the bounds have been read. -/
def RangeRequest.checked (r : RangeRequest) (contentSize : ℤ) : RangeRequest :=
  if r.begin < 0 ∨ r.last < r.begin ∨ contentSize ≤ r.begin then { r with satisfiable := false } else r

def parseRangeHeader (rangeValue : Option Bytes) (contentSize : ℤ) : RangeRequest :=
  match rangeValue with
  | none => {}
  | some v =>
    if contentSize ≤ 0 ∨ v.take 6 ≠ ascii "bytes=" then {}
    else match cutAt 0x2d ((v.drop 6).takeWhile (· ≠ 0x2c)) with
      | none => {}
      | some ([], last) =>
        match if last = [] then none else parseDigits last with
        | none => { present := true, satisfiable := false }
        | some suffixLen =>
          if suffixLen ≤ 0 then { present := true, satisfiable := false }
          else RangeRequest.checked
            { present := true, begin := max 0 (contentSize - suffixLen), last := contentSize - 1 } contentSize
      | some (begin, last) =>
        match parseDigits begin, if last = [] then some (contentSize - 1) else parseDigits last with
        | some begin, some last => RangeRequest.checked
            { present := true, begin, last := min last (contentSize - 1) } contentSize
        | _, _ => { present := true, satisfiable := false }

end Nhttp.Server
