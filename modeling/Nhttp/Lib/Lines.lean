import Nhttp.Lib.Octets

/-!
# Lines and separators in octet strings

* `cutAt c bs`: the parts of `bs` before and after its first `c`.
* `lineAt bs`: the first line of `bs`, without its LF and a CR before it, and how many octets it
  takes with them.
-/

namespace Octets

open List

abbrev CR : UInt8 := 13

abbrev LF : UInt8 := 10

/-- The parts before and after the first `c`, if there is one. -/
def cutAt (c : UInt8) (bs : Bytes) : Option (Bytes × Bytes) :=
  if c ∈ bs then some (bs.take (bs.idxOf c), bs.drop (bs.idxOf c + 1)) else none

theorem take_idxOf (c : UInt8) (bs : Bytes) : bs.take (bs.idxOf c) = bs.takeWhile (· ≠ c) := by
  induction bs with
  | nil => rfl
  | cons b bs ih =>
    by_cases h : b = c
    · simp [h]
    · simp [h, idxOf_cons_ne bs h, ih]

theorem drop_idxOf (c : UInt8) (bs : Bytes) : bs.drop (bs.idxOf c) = bs.dropWhile (· ≠ c) := by
  induction bs with
  | nil => rfl
  | cons b bs ih =>
    by_cases h : b = c
    · simp [h]
    · simp [h, idxOf_cons_ne bs h, ih]

variable {bs xs line : Bytes} {c : UInt8} {k : ℕ}

theorem cutAt_eq_none : cutAt c bs = none ↔ c ∉ bs := by
  unfold cutAt
  split_ifs with h
  · simp [h]
  · simp [h]

theorem cutAt_append_cons (h : c ∉ xs) (ys : Bytes) :
    cutAt c (xs ++ c :: ys) = some (xs, ys) := by
  unfold cutAt
  rw [if_pos (by simp), idxOf_append_of_notMem h]
  simp

theorem cutAt_eq_some {ys : Bytes} :
    cutAt c bs = some (xs, ys) ↔ bs = xs ++ c :: ys ∧ c ∉ xs := by
  constructor
  · intro h
    unfold cutAt at h
    split_ifs at h with hm
    cases h
    have hlt := idxOf_lt_length_iff.mpr hm
    have hget : bs[bs.idxOf c] = c := getElem_idxOf hlt
    constructor
    · conv_lhs => rw [← take_append_drop (bs.idxOf c) bs, drop_eq_getElem_cons hlt, hget]
    · rw [take_idxOf]
      intro hm
      simpa using mem_takeWhile_imp hm
  · rintro ⟨rfl, h⟩
    exact cutAt_append_cons h ys

def stripCr (line : Bytes) : Bytes := if line.getLast? = some CR then line.dropLast else line

/-- The first line and the number of octets it takes, its LF included. -/
def lineAt (bs : Bytes) : Option (Bytes × ℕ) :=
  if LF ∈ bs then some (stripCr (bs.take (bs.idxOf LF)), bs.idxOf LF + 1) else none

@[simp] theorem stripCr_append_cr (line : Bytes) : stripCr (line ++ [CR]) = line := by
  simp [stripCr]

theorem lineAt_eq_none : lineAt bs = none ↔ LF ∉ bs := by
  unfold lineAt
  split_ifs with h
  · simp [h]
  · simp [h]

theorem lineAt_length (h : lineAt bs = some (line, k)) :
    0 < k ∧ k ≤ bs.length := by
  unfold lineAt at h
  split_ifs at h with hm
  cases h
  exact ⟨Nat.succ_pos _, idxOf_lt_length_iff.mpr hm⟩

theorem lineAt_eq_some (h : lineAt bs = some (line, k)) :
    ∃ raw rest, bs = raw ++ LF :: rest ∧ LF ∉ raw ∧ line = stripCr raw ∧ k = raw.length + 1 := by
  unfold lineAt at h
  split_ifs at h with hm
  obtain ⟨hline, hk⟩ := Prod.mk.inj (Option.some.inj h)
  obtain ⟨hbs, hraw⟩ := cutAt_eq_some.mp (if_pos hm)
  refine ⟨_, _, hbs, hraw, hline.symm, ?_⟩
  rw [length_take, Nat.min_eq_left (idxOf_lt_length_iff.mpr hm).le, hk]

theorem stripCr_prefix (line : Bytes) : stripCr line <+: line := by
  unfold stripCr
  split_ifs
  · exact dropLast_prefix line
  · exact prefix_rfl

theorem lineAt_append (h : lineAt bs = some (line, k)) (cs : Bytes) :
    lineAt (bs ++ cs) = some (line, k) := by
  unfold lineAt at h ⊢
  split_ifs at h with hm
  cases h
  have hle : bs.idxOf LF ≤ bs.length := (idxOf_lt_length_iff.mpr hm).le
  rw [if_pos (mem_append_left _ hm), idxOf_append_of_mem hm,
    take_append_of_le_length hle]

/-- A line that only an appended part completes takes all of the first part. -/
theorem lineAt_append_of_not_mem {cs : Bytes} (hb : LF ∉ bs)
    (h : lineAt (bs ++ cs) = some (line, k)) : bs.length < k := by
  unfold lineAt at h
  split_ifs at h with hm
  cases h
  rw [idxOf_append_of_notMem hb]
  omega

theorem lineAt_raw {raw : Bytes} (h : LF ∉ raw) (rest : Bytes) :
    lineAt (raw ++ LF :: rest) = some (stripCr raw, raw.length + 1) := by
  have hi : (raw ++ LF :: rest).idxOf LF = raw.length := by
    rw [idxOf_append_of_notMem h]
    simp
  unfold lineAt
  rw [if_pos (by simp), hi, take_left]

theorem lineAt_crlf (h : LF ∉ line) (cs : Bytes) :
    lineAt (line ++ CR :: LF :: cs) = some (line, line.length + 2) := by
  have hb : LF ∉ line ++ [CR] := by
    rw [mem_append, mem_singleton]
    exact not_or.mpr ⟨h, by decide⟩
  have hi : (line ++ CR :: LF :: cs).idxOf LF = line.length + 1 := by
    rw [show line ++ CR :: LF :: cs = (line ++ [CR]) ++ LF :: cs by simp,
      idxOf_append_of_notMem hb]
    simp
  unfold lineAt
  rw [if_pos (by simp), hi]
  have ht : (line ++ CR :: LF :: cs).take (line.length + 1) = line ++ [CR] := by
    simp [take_append]
  rw [ht, stripCr_append_cr]

theorem drop_crlf (line cs : Bytes) : (line ++ CR :: LF :: cs).drop (line.length + 2) = cs := by
  rw [show line ++ CR :: LF :: cs = (line ++ [CR, LF]) ++ cs by simp]
  exact drop_left' (by simp)

end Octets
