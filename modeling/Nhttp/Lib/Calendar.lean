import Mathlib

/-!
# The proleptic Gregorian calendar

Days are counted from 1 January 1970, seconds from the start of this day; there are no leap seconds.

* `dayNumber`, `dateOf`: the number of a date and the date with a number, found by going through the years
  and months; `dayNumber_dateOf`, `dateOf_dayNumber`.
* `Moment`: the same with the time of day; **`toSeconds_momentOf`**, **`momentOf_toSeconds`**.
-/

namespace Calendar

/-! ## Years and months -/

def IsLeap (y : ℤ) : Prop := y % 4 = 0 ∧ (y % 100 ≠ 0 ∨ y % 400 = 0)

instance : DecidablePred IsLeap := fun _ => inferInstanceAs (Decidable (_ ∧ _))

def yearLength (y : ℤ) : ℕ := if IsLeap y then 366 else 365

def monthLengths (y : ℤ) : List ℕ := [31, if IsLeap y then 29 else 28, 31, 30, 31, 30, 31, 31, 30, 31, 30, 31]

/-- The leap years before a year, from the year 1 on. -/
def leapsBefore (y : ℤ) : ℤ := (y - 1) / 4 - (y - 1) / 100 + (y - 1) / 400

def daysBeforeYear (y : ℤ) : ℤ := 365 * (y - 1970) + (leapsBefore y - leapsBefore 1970)

theorem daysBeforeYear_succ (y : ℤ) : daysBeforeYear (y + 1) = daysBeforeYear y + yearLength y := by
  unfold daysBeforeYear leapsBefore
  by_cases h : IsLeap y
  · rw [yearLength, if_pos h]
    unfold IsLeap at h
    omega
  · rw [yearLength, if_neg h]
    unfold IsLeap at h
    omega

theorem daysBeforeYear_add_400 (y n : ℤ) : daysBeforeYear (y + 400 * n) = daysBeforeYear y + 146097 * n := by
  unfold daysBeforeYear leapsBefore
  omega

variable {y y' : ℤ} {l d m : ℕ} {ls : List ℕ}

theorem daysBeforeYear_mono (h : y ≤ y') : daysBeforeYear y ≤ daysBeforeYear y' := by
  unfold daysBeforeYear leapsBefore
  omega

theorem sum_monthLengths (y : ℤ) : (monthLengths y).sum = yearLength y := by
  unfold monthLengths yearLength
  split_ifs <;> rfl

theorem sum_take_monthLengths_le (y : ℤ) (m : ℕ) : ((monthLengths y).take m).sum ≤ 366 := by
  have h := List.sum_take_add_sum_drop (monthLengths y) m
  rw [sum_monthLengths] at h
  have hy : yearLength y ≤ 366 := by
    unfold yearLength
    split_ifs <;> omega
  omega

theorem le_of_mem_monthLengths (h : l ∈ monthLengths y) : l ≤ 31 := by
  have hfeb : (if IsLeap y then 29 else 28) ≤ 31 := by split_ifs <;> omega
  simp only [monthLengths, List.mem_cons, List.not_mem_nil, or_false] at h
  omega

/-! ## Dates -/

/-- A date; the months are counted from `0`, the days of a month from `1`. -/
structure Date where
  year : ℤ
  month : ℕ
  day : ℕ
deriving DecidableEq, Repr

def dayNumber (year : ℤ) (month : ℕ) (day : ℤ) : ℤ :=
  daysBeforeYear year + ((monthLengths year).take month).sum + (day - 1)

/-- The year of the day `d` days after the start of `y`, and the day in it. -/
def findYear : ℕ → ℤ → ℕ → ℤ × ℕ
  | 0, y, d => (y, d)
  | fuel + 1, y, d => if d < yearLength y then (y, d) else findYear fuel (y + 1) (d - yearLength y)

def findMonth : List ℕ → ℕ → ℕ × ℕ
  | [], d => (0, d)
  | l :: ls, d => if d < l then (0, d) else ((findMonth ls (d - l)).1 + 1, (findMonth ls (d - l)).2)

def dateOf (n : ℤ) : Date :=
  let (y, d) := findYear 400 (1970 + 400 * (n / 146097)) (n % 146097).toNat
  let (m, d) := findMonth (monthLengths y) d
  ⟨y, m, d + 1⟩

theorem findYear_days (fuel : ℕ) (y : ℤ) (d : ℕ) :
    daysBeforeYear (findYear fuel y d).1 + (findYear fuel y d).2 = daysBeforeYear y + d := by
  induction fuel generalizing y d with
  | zero => rfl
  | succ fuel ih =>
    rw [findYear]
    split_ifs with h
    · rfl
    · rw [ih, daysBeforeYear_succ]
      omega

theorem findYear_lt {fuel : ℕ} (h : daysBeforeYear y + d < daysBeforeYear (y + fuel)) :
    (findYear fuel y d).2 < yearLength (findYear fuel y d).1 := by
  induction fuel generalizing y d with
  | zero =>
    rw [show y + ((0 : ℕ) : ℤ) = y by omega] at h
    omega
  | succ fuel ih =>
    rw [findYear]
    split_ifs with hd
    · exact hd
    · refine ih ?_
      rw [show y + ((fuel + 1 : ℕ) : ℤ) = y + 1 + fuel by omega] at h
      rw [daysBeforeYear_succ]
      omega

theorem findMonth_days (ls : List ℕ) (d : ℕ) : (ls.take (findMonth ls d).1).sum + (findMonth ls d).2 = d := by
  induction ls generalizing d with
  | nil => simp [findMonth]
  | cons l ls ih =>
    rw [findMonth]
    split_ifs with h
    · simp
    · rw [List.take_succ_cons, List.sum_cons, add_assoc, ih]
      omega

theorem findMonth_lt (h : d < ls.sum) :
    ∃ l, ls[(findMonth ls d).1]? = some l ∧ (findMonth ls d).2 < l := by
  induction ls generalizing d with
  | nil => cases h
  | cons l ls ih =>
    rw [findMonth]
    split_ifs with hd
    · exact ⟨l, rfl, hd⟩
    · rw [List.sum_cons] at h
      exact ih (by omega)

theorem findYear_spec (n : ℤ) :
    let r := findYear 400 (1970 + 400 * (n / 146097)) (n % 146097).toNat
    daysBeforeYear r.1 + r.2 = n ∧ r.2 < yearLength r.1 := by
  have h0 : daysBeforeYear 1970 = 0 := by decide
  have hstart := daysBeforeYear_add_400 1970 (n / 146097)
  have hnext := daysBeforeYear_add_400 (1970 + 400 * (n / 146097)) 1
  refine ⟨?_, findYear_lt ?_⟩
  · rw [findYear_days, hstart]
    omega
  · rw [show ((400 : ℕ) : ℤ) = 400 * 1 by rfl, hnext, hstart]
    omega

theorem dayNumber_dateOf (n : ℤ) : dayNumber (dateOf n).year (dateOf n).month (dateOf n).day = n := by
  obtain ⟨hdays, -⟩ := findYear_spec n
  have hmonth := findMonth_days (monthLengths (findYear 400 (1970 + 400 * (n / 146097)) (n % 146097).toNat).1)
    (findYear 400 (1970 + 400 * (n / 146097)) (n % 146097).toNat).2
  unfold dayNumber dateOf
  dsimp only
  omega

theorem dateOf_month (n : ℤ) : ∃ l, (monthLengths (dateOf n).year)[(dateOf n).month]? = some l ∧
    1 ≤ (dateOf n).day ∧ (dateOf n).day ≤ l := by
  obtain ⟨-, hlt⟩ := findYear_spec n
  rw [← sum_monthLengths] at hlt
  obtain ⟨l, hl, hd⟩ := findMonth_lt hlt
  exact ⟨l, hl, Nat.le_add_left 1 _, hd⟩

theorem dateOf_bounds (n : ℤ) : (dateOf n).month < 12 ∧ 1 ≤ (dateOf n).day ∧ (dateOf n).day ≤ 31 := by
  obtain ⟨l, hl, h1, hd⟩ := dateOf_month n
  exact ⟨(List.getElem?_eq_some_iff.mp hl).1, h1, hd.trans (le_of_mem_monthLengths (List.mem_of_getElem? hl))⟩

theorem dateOf_year {n : ℤ} (h : daysBeforeYear y ≤ n) (h' : n < daysBeforeYear y') :
    y ≤ (dateOf n).year ∧ (dateOf n).year < y' := by
  obtain ⟨hdays, hlt⟩ := findYear_spec n
  have hsucc := daysBeforeYear_succ (dateOf n).year
  unfold dateOf at hsucc ⊢
  dsimp only at hsucc ⊢
  constructor
  · by_contra hy
    have := daysBeforeYear_mono (Int.not_le.mp hy)
    omega
  · by_contra hy
    have := daysBeforeYear_mono (Int.not_lt.mp hy)
    omega

theorem findMonth_add {k : ℕ} (hl : ls[m]? = some l) (hk : k < l) :
    findMonth ls ((ls.take m).sum + k) = (m, k) := by
  induction ls generalizing m with
  | nil => cases hl
  | cons l' ls ih =>
    cases m with
    | zero =>
      cases hl
      rw [List.take_zero, List.sum_nil, Nat.zero_add, findMonth, if_pos hk]
    | succ m =>
      rw [List.take_succ_cons, List.sum_cons, Nat.add_assoc, findMonth, if_neg (by omega), Nat.add_sub_cancel_left,
        ih hl]

theorem sum_take_le (y : ℤ) (hl : (monthLengths y)[m]? = some l) :
    ((monthLengths y).take m).sum + l ≤ yearLength y := by
  obtain ⟨hm, rfl⟩ := List.getElem?_eq_some_iff.mp hl
  rw [← sum_monthLengths, ← List.sum_take_add_sum_drop (monthLengths y) (m + 1), List.sum_take_succ _ _ hm]
  omega

theorem dateOf_dayNumber (hl : (monthLengths y)[m]? = some l) (hd : 1 ≤ d) (hle : d ≤ l) :
    dateOf (dayNumber y m d) = ⟨y, m, d⟩ := by
  have hsum := sum_take_le y hl
  have hsucc := daysBeforeYear_succ y
  obtain ⟨hy, hy'⟩ := dateOf_year (show daysBeforeYear y ≤ dayNumber y m d by unfold dayNumber; omega)
    (show dayNumber y m d < daysBeforeYear (y + 1) by unfold dayNumber; omega)
  obtain ⟨hdays, -⟩ := findYear_spec (dayNumber y m d)
  unfold dateOf at hy hy' ⊢
  dsimp only at hdays hy hy' ⊢
  rw [show (findYear 400 (1970 + 400 * (dayNumber y m d / 146097)) (dayNumber y m d % 146097).toNat).1 = y by omega]
    at hdays ⊢
  have hk : (findYear 400 (1970 + 400 * (dayNumber y m d / 146097)) (dayNumber y m d % 146097).toNat).2 =
      ((monthLengths y).take m).sum + (d - 1) := by
    unfold dayNumber at hdays ⊢
    omega
  rw [hk, findMonth_add hl (by omega)]
  simp only [Date.mk.injEq, true_and]
  omega

/-! ## The time of day -/

/-- A date with the time of day and the day of the week, counted from Sunday. -/
structure Moment where
  year : ℤ
  month : ℕ
  day : ℕ
  hour : ℕ
  minute : ℕ
  second : ℕ
  weekday : ℕ
deriving DecidableEq, Repr

def momentOf (t : ℤ) : Moment :=
  let date := dateOf (t / 86400)
  let s := (t % 86400).toNat
  { year := date.year, month := date.month, day := date.day, hour := s / 3600, minute := s / 60 % 60,
    second := s % 60, weekday := ((t / 86400 + 4) % 7).toNat }

/-- The seconds before a moment; fields beyond their ranges carry over. -/
def toSeconds (year : ℤ) (month : ℕ) (day hour minute second : ℤ) : ℤ :=
  ((dayNumber year month day * 24 + hour) * 60 + minute) * 60 + second

/-- **There and back.** -/
theorem toSeconds_momentOf (t : ℤ) : toSeconds (momentOf t).year (momentOf t).month (momentOf t).day
    (momentOf t).hour (momentOf t).minute (momentOf t).second = t := by
  have hday := dayNumber_dateOf (t / 86400)
  unfold toSeconds momentOf
  dsimp only
  omega

theorem momentOf_bounds (t : ℤ) : (momentOf t).month < 12 ∧ (momentOf t).day ≤ 31 ∧ (momentOf t).hour < 24 ∧
    (momentOf t).minute < 60 ∧ (momentOf t).second < 60 ∧ (momentOf t).weekday < 7 := by
  obtain ⟨hm, -, hd⟩ := dateOf_bounds (t / 86400)
  unfold momentOf
  dsimp only
  exact ⟨hm, hd, by omega, by omega, by omega, by omega⟩

/-- **Back and there**, for fields within their ranges. -/
theorem momentOf_toSeconds {mon h s : ℕ} (hl : (monthLengths y)[mon]? = some l) (hd : 1 ≤ d)
    (hle : d ≤ l) (hh : h < 24) (hm : m < 60) (hs : s < 60) :
    momentOf (toSeconds y mon d h m s) = ⟨y, mon, d, h, m, s, ((dayNumber y mon d + 4) % 7).toNat⟩ := by
  have hday : toSeconds y mon d h m s / 86400 = dayNumber y mon d := by
    unfold toSeconds
    omega
  have hsec : (toSeconds y mon d h m s % 86400).toNat = (h * 60 + m) * 60 + s := by
    unfold toSeconds
    omega
  unfold momentOf
  rw [hday, hsec, dateOf_dayNumber hl hd hle]
  simp only [Moment.mk.injEq, true_and, and_true]
  omega

example : momentOf 784887151 = ⟨1994, 10, 15, 8, 12, 31, 2⟩ := by decide +kernel

end Calendar
