import Nhttp.Lib.Calendar
import Nhttp.Protocol.Status

/-!
# Dates in header fields

`gmtime_r` and `timegm` are `momentOf` and `toSeconds` of the proleptic Gregorian calendar.

* **`formatHttpDate_parses`**: a date before the year 10000 has 29 octets and is read back.
* `GenuineDate`: a text that begins with an RFC 1123 date; **`parseHttpDate_exact_iff`**: of the texts
  accepted, exactly these begin with the date they are read as.
-/

namespace Nhttp.Protocol

open Octets Calendar
open List hiding le_refl

def weekdayNames : List Bytes := ["Sun", "Mon", "Tue", "Wed", "Thu", "Fri", "Sat"].map ascii

def monthNames : List Bytes :=
  ["Jan", "Feb", "Mar", "Apr", "May", "Jun", "Jul", "Aug", "Sep", "Oct", "Nov", "Dec"].map ascii

/-- `month_index`; `none` stands for `-1`. -/
def monthIndex (name : Bytes) : Option ℕ := monthNames.findIdx? (· = name)

/-- A number in at least `w` digits. -/
def padded (w n : ℕ) : Bytes := List.replicate (w - (decimalDigits n).length) 0x30 ++ decimalDigits n

/-- The same for a number with a sign, which takes one of the places. -/
def paddedInt (w : ℕ) (z : ℤ) : Bytes := if z < 0 then 0x2d :: padded (w - 1) z.natAbs else padded w z.toNat

/-- `format_http_date`. The buffer of 32 octets is long enough for years of up to six digits. -/
def formatHttpDate (time : ℤ) : Bytes :=
  let tm := momentOf time
  weekdayNames.getD tm.weekday [] ++ ascii ", " ++ padded 2 tm.day ++ ascii " " ++ monthNames.getD tm.month [] ++
    ascii " " ++ paddedInt 4 tm.year ++ ascii " " ++ padded 2 tm.hour ++ ascii ":" ++ padded 2 tm.minute ++
    ascii ":" ++ padded 2 tm.second ++ ascii " GMT"

/-- `to_int`: `-1` if there is another octet than a digit. -/
def toInt (value : ℤ) : Bytes → ℤ
  | [] => value
  | c :: cs => if isDigit c then toInt (value * 10 + (c.toNat - 0x30 : ℕ)) cs else -1

def parseHttpDate (text : Bytes) : ℤ :=
  if text.length < 29 then -1
  else match monthIndex ((text.drop 8).take 3) with
    | none => -1
    | some month =>
      let mday := toInt 0 ((text.drop 5).take 2)
      let year := toInt 0 ((text.drop 12).take 4)
      let hour := toInt 0 ((text.drop 17).take 2)
      let min := toInt 0 ((text.drop 20).take 2)
      let sec := toInt 0 ((text.drop 23).take 2)
      if mday < 0 ∨ hour < 0 ∨ min < 0 ∨ sec < 0 then -1 else toSeconds year month mday hour min sec

/-! ## Numbers with leading zeros -/

theorem toInt_append {digits : Bytes} (h : ∀ c ∈ digits, isDigit c = true) (value : ℤ) (rest : Bytes) :
    toInt value (digits ++ rest) = toInt (toInt value digits) rest := by
  induction digits generalizing value with
  | nil => rfl
  | cons c digits ih =>
    rw [cons_append, toInt, toInt, if_pos (h c mem_cons_self), if_pos (h c mem_cons_self),
      ih fun d hd => h d (mem_cons_of_mem _ hd)]

theorem toInt_decimalDigits (n : ℕ) : toInt 0 (decimalDigits n) = n := by
  induction n using decimalDigits.induct with
  | case1 n h =>
    rw [decimalDigits, if_pos h, toInt, if_pos (isDigit_ofNat h), toNat_ofNat_digit h, toInt]
    omega
  | case2 n h ih =>
    have hlt := Nat.mod_lt n (show 0 < 10 by omega)
    rw [decimalDigits, if_neg h, toInt_append (isDigit_decimalDigits _), ih, toInt, if_pos (isDigit_ofNat hlt),
      toNat_ofNat_digit hlt, toInt]
    omega

theorem toInt_zeros (k : ℕ) (rest : Bytes) : toInt 0 (List.replicate k 0x30 ++ rest) = toInt 0 rest := by
  induction k with
  | zero => rfl
  | succ k ih =>
    exact ih

theorem toInt_padded (w n : ℕ) : toInt 0 (padded w n) = n := by
  rw [padded, toInt_zeros, toInt_decimalDigits]

variable {n w i month day hour minute second : ℕ} {year t : ℤ} {text : Bytes}

theorem length_decimalDigits_le (h : n < 10 ^ (w + 1)) : (decimalDigits n).length ≤ w + 1 := by
  induction w generalizing n with
  | zero =>
    rw [decimalDigits, if_pos (by omega)]
    exact le_rfl
  | succ w ih =>
    rw [decimalDigits]
    split_ifs with hn
    · simp
    · rw [length_append, length_singleton]
      have := ih (n := n / 10) (by rw [pow_succ] at h; omega)
      omega

theorem length_padded (h : n < 10 ^ (w + 1)) : (padded (w + 1) n).length = w + 1 := by
  have := length_decimalDigits_le h
  rw [padded, length_append, length_replicate]
  omega

/-! ## There and back -/

theorem length_weekdayNames (h : i < 7) : (weekdayNames.getD i []).length = 3 := by
  interval_cases i <;> rfl

theorem length_monthNames (h : i < 12) : (monthNames.getD i []).length = 3 := by
  interval_cases i <;> rfl

theorem monthIndex_monthNames (h : i < 12) : monthIndex (monthNames.getD i []) = some i := by
  interval_cases i <;> rfl

def dateText (year : ℤ) (month day hour minute second : ℕ) : Bytes :=
  weekdayNames.getD ((dayNumber year month day + 4) % 7).toNat [] ++ ascii ", " ++ padded 2 day ++ ascii " " ++
    monthNames.getD month [] ++ ascii " " ++ paddedInt 4 year ++ ascii " " ++ padded 2 hour ++ ascii ":" ++
    padded 2 minute ++ ascii ":" ++ padded 2 second ++ ascii " GMT"

theorem formatHttpDate_eq (t : ℤ) : formatHttpDate t = dateText (momentOf t).year (momentOf t).month (momentOf t).day
    (momentOf t).hour (momentOf t).minute (momentOf t).second := by
  have hday : dayNumber (momentOf t).year (momentOf t).month (momentOf t).day = t / 86400 := dayNumber_dateOf _
  unfold dateText
  rw [hday]
  rfl

theorem parseHttpDate_fields {wday mday mon year hour min sec : Bytes} (hwday : wday.length = 3)
    (hmday : mday.length = 2) (hmon : mon.length = 3) (hyear : year.length = 4) (hhour : hour.length = 2)
    (hmin : min.length = 2) (hsec : sec.length = 2) (hmonth : monthIndex mon = some month)
    (h : ¬(toInt 0 mday < 0 ∨ toInt 0 hour < 0 ∨ toInt 0 min < 0 ∨ toInt 0 sec < 0)) (rest : Bytes) :
    parseHttpDate (wday ++ ascii ", " ++ mday ++ ascii " " ++ mon ++ ascii " " ++ year ++ ascii " " ++ hour ++
        ascii ":" ++ min ++ ascii ":" ++ sec ++ ascii " GMT" ++ rest) =
      toSeconds (toInt 0 year) month (toInt 0 mday) (toInt 0 hour) (toInt 0 min) (toInt 0 sec) := by
  obtain ⟨_, _, _, rfl⟩ := length_eq_three.mp hwday
  obtain ⟨_, _, rfl⟩ := length_eq_two.mp hmday
  obtain ⟨_, _, _, rfl⟩ := length_eq_three.mp hmon
  obtain ⟨_, _, rfl⟩ := length_eq_two.mp hhour
  obtain ⟨_, _, rfl⟩ := length_eq_two.mp hmin
  obtain ⟨_, _, rfl⟩ := length_eq_two.mp hsec
  match year, hyear with
  | [_, _, _, _], _ =>
    rw [show ascii ", " = [0x2c, 0x20] from rfl, show ascii " " = [0x20] from rfl, show ascii ":" = [0x3a] from rfl,
      show ascii " GMT" = [0x20, 0x47, 0x4d, 0x54] from rfl, parseHttpDate]
    simp only [cons_append, nil_append, length_cons, drop_succ_cons, drop_zero,
      take_succ_cons, take_zero, hmonth]
    rw [if_neg (by omega), if_neg h]

theorem parseHttpDate_dateText (hy : (paddedInt 4 year).length = 4)
    (hmonth : month < 12) (hday : day < 100) (hhour : hour < 100) (hmin : minute < 100) (hsec : second < 100)
    (rest : Bytes) : parseHttpDate (dateText year month day hour minute second ++ rest) =
      toSeconds (toInt 0 (paddedInt 4 year)) month day hour minute second := by
  have hwday : ((dayNumber year month day + 4) % 7).toNat < 7 := by omega
  unfold dateText
  rw [parseHttpDate_fields (length_weekdayNames hwday) (length_padded (by omega)) (length_monthNames hmonth) hy
    (length_padded (by omega)) (length_padded (by omega)) (length_padded (by omega)) (monthIndex_monthNames hmonth)
    (by simp only [toInt_padded]; omega)]
  simp only [toInt_padded]

theorem paddedInt_of_le (h0 : -1 ≤ year) (h : year ≤ 9999) :
    (paddedInt 4 year).length = 4 ∧ toInt 0 (paddedInt 4 year) = year := by
  obtain rfl | h0 : year = -1 ∨ 0 ≤ year := by omega
  · exact ⟨by decide +kernel, by decide +kernel⟩
  · rw [show paddedInt 4 year = padded 4 year.toNat from if_neg (by omega)]
    exact ⟨length_padded (by omega), (toInt_padded 4 _).trans (Int.toNat_of_nonneg h0)⟩

theorem year_of_le (h0 : 0 ≤ t) (h : t ≤ 253402300799) :
    1970 ≤ (momentOf t).year ∧ (momentOf t).year < 10000 := by
  have h1 : daysBeforeYear 1970 = 0 := by decide
  have h2 : daysBeforeYear 10000 = 2932897 := by decide
  exact dateOf_year (by omega) (by omega)

theorem parseHttpDate_formatHttpDate (h0 : 0 ≤ t) (h : t ≤ 253402300799) :
    parseHttpDate (formatHttpDate t) = t := by
  obtain ⟨hmonth, hday, hhour, hmin, hsec, -⟩ := momentOf_bounds t
  obtain ⟨hy0, hy⟩ := year_of_le h0 h
  obtain ⟨hlen, hint⟩ := paddedInt_of_le (show -1 ≤ (momentOf t).year by omega) (by omega)
  have hp := parseHttpDate_dateText hlen hmonth (show (momentOf t).day < 100 by omega)
    (show (momentOf t).hour < 100 by omega) (show (momentOf t).minute < 100 by omega)
    (show (momentOf t).second < 100 by omega) []
  rw [append_nil, ← formatHttpDate_eq, hint, toSeconds_momentOf] at hp
  exact hp

theorem length_dateText (hy : (paddedInt 4 year).length = 4)
    (hmonth : month < 12) (hday : day < 100) (hhour : hour < 100) (hmin : minute < 100) (hsec : second < 100) :
    (dateText year month day hour minute second).length = 29 := by
  have hwday : ((dayNumber year month day + 4) % 7).toNat < 7 := by omega
  simp only [dateText, length_append]
  rw [length_weekdayNames hwday, length_monthNames hmonth, hy, length_padded (by omega), length_padded (by omega),
    length_padded (by omega), length_padded (by omega)]
  rfl

/-- **Dates are read back**, up to the last second of the year 9999, and have 29 octets. -/
theorem formatHttpDate_parses {t : ℤ} (h₀ : 0 ≤ t) (h : t ≤ 253402300799) :
    (formatHttpDate t).length = 29 ∧ parseHttpDate (formatHttpDate t) = t := by
  obtain ⟨hmonth, hday, hhour, hmin, hsec, -⟩ := momentOf_bounds t
  obtain ⟨hy₀, hy⟩ := year_of_le h₀ h
  refine ⟨?_, parseHttpDate_formatHttpDate h₀ h⟩
  rw [formatHttpDate_eq]
  exact length_dateText (paddedInt_of_le (by omega) (by omega)).1 hmonth (by omega) (by omega) (by omega) (by omega)

theorem formatHttpDate_parses_1994 :
    (formatHttpDate 784887151).length = 29 ∧ parseHttpDate (formatHttpDate 784887151) = 784887151 :=
  formatHttpDate_parses (by decide) (by decide)

example : formatHttpDate 784887151 = ascii "Tue, 15 Nov 1994 08:12:31 GMT" := by decide +kernel

/-! ## Texts that are no dates -/

/-- The text begins with an RFC 1123 date; a year that is no number is read as `-1`, which is written `-001`. -/
def GenuineDate (text : Bytes) : Prop :=
  ∃ (year : ℤ) (month day l hour minute second : ℕ), -1 ≤ year ∧ year ≤ 9999 ∧
    (monthLengths year)[month]? = some l ∧ 1 ≤ day ∧ day ≤ l ∧ hour < 24 ∧ minute < 60 ∧ second < 60 ∧
    dateText year month day hour minute second <+: text

theorem toInt_bounds (digits : Bytes) {value : ℤ} (h : 0 ≤ value) :
    -1 ≤ toInt value digits ∧ toInt value digits < (value + 1) * 10 ^ digits.length := by
  induction digits generalizing value with
  | nil => exact ⟨by rw [toInt]; omega, by rw [toInt, length_nil]; omega⟩
  | cons c cs ih =>
    have hpow : (0 : ℤ) < 10 ^ cs.length := by positivity
    rw [toInt, length_cons, pow_succ]
    split_ifs with hc
    · have hc9 : c.toNat ≤ 0x39 := by
        simp only [isDigit, Bool.and_eq_true, decide_eq_true_eq] at hc
        exact UInt8.le_iff_toNat_le.mp hc.2
      obtain ⟨h1, h2⟩ := ih (show 0 ≤ value * 10 + (c.toNat - 0x30 : ℕ) by omega)
      refine ⟨h1, h2.trans_le ?_⟩
      rw [mul_comm (10 ^ cs.length), ← mul_assoc]
      exact mul_le_mul_of_nonneg_right (by omega) hpow.le
    · have : 0 ≤ (value + 1) * (10 ^ cs.length * 10) := by positivity
      omega

theorem toInt_take (xs : Bytes) (n : ℕ) : -1 ≤ toInt 0 (xs.take n) ∧ toInt 0 (xs.take n) < 10 ^ n := by
  obtain ⟨h1, h2⟩ := toInt_bounds (xs.take n) (le_refl 0)
  refine ⟨h1, h2.trans_le ?_⟩
  rw [zero_add, one_mul]
  exact pow_le_pow_right₀ (by omega) (length_take_le n xs)

theorem year_parseHttpDate (h : parseHttpDate text ≠ -1) :
    -2 ≤ (momentOf (parseHttpDate text)).year ∧ (momentOf (parseHttpDate text)).year ≤ 10000 := by
  have key : ∀ (year mday hour min sec : ℤ) (month : ℕ), -1 ≤ year ∧ year < 10 ^ 4 → 0 ≤ mday ∧ mday < 10 ^ 2 →
      0 ≤ hour ∧ hour < 10 ^ 2 → 0 ≤ min ∧ min < 10 ^ 2 → 0 ≤ sec ∧ sec < 10 ^ 2 →
      -2 ≤ (momentOf (toSeconds year month mday hour min sec)).year ∧
        (momentOf (toSeconds year month mday hour min sec)).year < 10001 := by
    intro year mday hour min sec month hyear hmday hhour hmin hsec
    have h1 : daysBeforeYear (-2) = -720258 := by decide
    have h2 := daysBeforeYear_mono hyear.1
    have h3 := daysBeforeYear_mono (show year ≤ 9999 by omega)
    have h4 : daysBeforeYear (-1) = -719893 := by decide
    have h5 : daysBeforeYear 9999 = 2932532 := by decide
    have h6 : daysBeforeYear 10001 = 2933263 := by decide
    have hsum := sum_take_monthLengths_le year month
    refine dateOf_year ?_ ?_
    · rw [h1]
      unfold toSeconds dayNumber
      omega
    · rw [h6]
      unfold toSeconds dayNumber
      omega
  unfold parseHttpDate at h ⊢
  split_ifs with hlen
  · rw [if_pos hlen] at h
    exact absurd rfl h
  rw [if_neg hlen] at h
  cases hm : monthIndex ((text.drop 8).take 3) with
  | none =>
    rw [hm] at h
    exact absurd rfl h
  | some month =>
    rw [hm] at h
    dsimp only at h ⊢
    split_ifs at h ⊢ with hneg
    · exact absurd rfl h
    · have hmday := toInt_take (text.drop 5) 2
      have hhour := toInt_take (text.drop 17) 2
      have hmin := toInt_take (text.drop 20) 2
      have hsec := toInt_take (text.drop 23) 2
      have := key _ _ _ _ _ month (toInt_take (text.drop 12) 4) ⟨by omega, hmday.2⟩ ⟨by omega, hhour.2⟩
        ⟨by omega, hmin.2⟩ ⟨by omega, hsec.2⟩
      omega

theorem parseHttpDate_of_hour {c : UInt8} (h : text[17]? = some c) (hc : isDigit c = false) :
    parseHttpDate text = -1 := by
  obtain ⟨hlt, rfl⟩ := List.getElem?_eq_some_iff.mp h
  have hhour : toInt 0 ((text.drop 17).take 2) = -1 := by
    rw [drop_eq_getElem_cons hlt, take_succ_cons, toInt, if_neg (by rw [hc]; decide)]
  unfold parseHttpDate
  split_ifs
  · rfl
  · cases monthIndex ((text.drop 8).take 3) with
    | none => rfl
    | some month =>
      dsimp only
      rw [hhour, if_pos (.inr (.inl (by decide)))]

/-- A year of five digits moves the hour. -/
theorem parseHttpDate_long (hmonth : month < 12) (hday : day < 100) (rest : Bytes) :
    parseHttpDate (dateText 10000 month day hour minute second ++ rest) = -1 := by
  have hwday : ((dayNumber 10000 month day + 4) % 7).toNat < 7 := by omega
  have hyear : paddedInt 4 10000 = ascii "10000" := by decide +kernel
  have hlen : (weekdayNames.getD ((dayNumber 10000 month day + 4) % 7).toNat [] ++ ascii ", " ++ padded 2 day ++
      ascii " " ++ monthNames.getD month [] ++ ascii " " ++ ascii "10000").length = 17 := by
    simp only [length_append]
    rw [length_weekdayNames hwday, length_monthNames hmonth, length_padded (by omega)]
    rfl
  refine parseHttpDate_of_hour (c := 0x20) ?_ (by decide)
  unfold dateText
  rw [hyear, append_assoc, append_assoc, append_assoc, append_assoc, append_assoc,
    append_assoc, append_assoc, getElem?_append_right (by omega), hlen]
  rfl

/-- **What is accepted and is the date it is read as.** -/
theorem parseHttpDate_exact_iff {text : Bytes} (h : parseHttpDate text ≠ -1) :
    formatHttpDate (parseHttpDate text) <+: text ↔ GenuineDate text := by
  constructor
  · rintro ⟨rest, hrest⟩
    obtain ⟨hmonth, hday, hhour, hmin, hsec, -⟩ := momentOf_bounds (parseHttpDate text)
    obtain ⟨hy₀, hy⟩ := year_parseHttpDate h
    have hback := toSeconds_momentOf (parseHttpDate text)
    obtain ⟨l, hl, hd, hle⟩ := dateOf_month (parseHttpDate text / 86400)
    have hpre : formatHttpDate (parseHttpDate text) <+: text := ⟨rest, hrest⟩
    rw [formatHttpDate_eq] at hrest hpre
    have h10000 : (momentOf (parseHttpDate text)).year ≠ 10000 := by
      intro he
      rw [he] at hrest
      exact h (hrest ▸ parseHttpDate_long hmonth (by omega) rest)
    have h2 : (momentOf (parseHttpDate text)).year ≠ -2 := by
      intro he
      rw [he] at hrest hback
      have hp := parseHttpDate_dateText (show (paddedInt 4 (-2)).length = 4 by decide +kernel) hmonth
        (show (momentOf (parseHttpDate text)).day < 100 by omega)
        (show (momentOf (parseHttpDate text)).hour < 100 by omega)
        (show (momentOf (parseHttpDate text)).minute < 100 by omega)
        (show (momentOf (parseHttpDate text)).second < 100 by omega) rest
      rw [hrest, show toInt 0 (paddedInt 4 (-2)) = -1 by decide +kernel] at hp
      have hdays : daysBeforeYear (-1) = daysBeforeYear (-2) + 365 := by decide
      unfold toSeconds dayNumber at hback hp
      rw [show monthLengths (-1) = monthLengths (-2) by decide] at hp
      omega
    exact ⟨(momentOf (parseHttpDate text)).year, _, _, l, _, _, _, by omega, by omega, hl, hd, hle, hhour, hmin, hsec,
      hpre⟩
  · rintro ⟨year, month, day, l, hour, minute, second, hy₀, hy, hl, hd, hle, hh, hm, hs, rest, rfl⟩
    obtain ⟨hmonth, -⟩ := List.getElem?_eq_some_iff.mp hl
    have hl31 := le_of_mem_monthLengths (mem_of_getElem? hl)
    obtain ⟨hlen, hint⟩ := paddedInt_of_le hy₀ hy
    rw [parseHttpDate_dateText hlen hmonth (by omega) (by omega) (by omega) (by omega), hint, formatHttpDate_eq,
      momentOf_toSeconds hl hd hle hh hm hs]
    exact prefix_append _ _

theorem parseHttpDate_exact_1994 :
    formatHttpDate (parseHttpDate (ascii "Tue, 15 Nov 1994 08:12:31 GMT")) <+: ascii "Tue, 15 Nov 1994 08:12:31 GMT" :=
  (parseHttpDate_exact_iff (by decide +kernel)).mpr
    ⟨1994, 10, 15, 30, 8, 12, 31, by decide, by decide, by decide, by decide, by decide, by decide, by decide, by decide,
      by decide +kernel⟩

/-- **Texts that are no dates are accepted**: a wrong weekday, no separators, the 99th of a month, a year without digits. -/
theorem parseHttpDate_inexact :
    (["Sun, 15 Nov 1994 08:12:31 GMT", "Tue?!15?Nov?1994?08?12?31?UTC", "Tue, 99 Feb 1994 08:12:99 GMT",
      "Tue, 15 Nov year 08:12:31 GMT"].map ascii).all fun text =>
        parseHttpDate text ≠ -1 ∧ ¬formatHttpDate (parseHttpDate text) <+: text := by
  decide +kernel

end Nhttp.Protocol
