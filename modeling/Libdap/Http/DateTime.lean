import Libdap.Http.HttpDate
import Mathlib.Data.Nat.Find

/-! # Dates as the library writes them

`date_time_str` in GMT, and the forms in which a server may write a date. A time is taken apart by the calendar that
`timegm` puts it together with.
-/

namespace Libdap.Http
open Core Constraint
set_option autoImplicit false

/-! ## The calendar -/

/-- The year of a day; a guess by the mean length of a year is at most one too high or too low. -/
def yearOf (days : Int) : Int :=
  let year := 1970 + 400 * days / 146097
  if days < daysBeforeYear year then year - 1
  else if daysBeforeYear (year + 1) ≤ days then year + 1
  else year

def monthOf (year yday : Int) : Fin 12 :=
  ⟨Nat.findGreatest (fun mon => daysBeforeMonth year mon ≤ yday) 11, Nat.lt_succ_of_le (Nat.findGreatest_le 11)⟩

def gmtime (t : Int) : Tm :=
  let days := t / 86400
  let year := yearOf days
  let yday := days - daysBeforeYear year
  let mon := monthOf year yday
  ⟨t % 60, t / 60 % 60, t / 3600 % 24, yday - daysBeforeMonth year (mon : Nat) + 1, (mon : Nat), year - 1900⟩

/-- The first day was a Thursday. -/
def wdayOf (t : Int) : Fin 7 := ⟨((t / 86400 + 4) % 7).toNat, by omega⟩

def monthIndex (mon : Int) : Fin 12 := ⟨mon.toNat % 12, Nat.mod_lt _ (Nat.zero_lt_succ 11)⟩

/-- `strftime` with `%a, %d %b %Y %H:%M:%S GMT` -/
def strftime (wday : Fin 7) (tm : Tm) : Word :=
  wkdayName wday ++ ',' :: ' ' :: (twoDigits tm.mday.toNat ++ ' ' :: (monthName (monthIndex tm.mon) ++
    ' ' :: (integer (tm.year + 1900) ++ ' ' :: (twoDigits tm.hour.toNat ++ ':' :: (twoDigits tm.min.toNat ++
      ':' :: (twoDigits tm.sec.toNat ++ " GMT".toList))))))

/-- `date_time_str`, with its default for `local`. -/
def dateTimeStr (t : Int) : Word := strftime (wdayOf t) (gmtime t)

theorem daysBeforeYear_succ (year : Int) :
    daysBeforeYear (year + 1) = daysBeforeYear year + 365 + if isLeap year then 1 else 0 := by
  have hLeap := HttpDate.isLeap_iff year
  simp only [daysBeforeYear]
  cases hCase : isLeap year with
  | false =>
    have hNot : ¬ (year % 4 = 0 ∧ (year % 100 ≠ 0 ∨ year % 400 = 0)) := fun h => by
      rw [hLeap.mpr h] at hCase
      cases hCase
    simp only [Bool.false_eq_true, if_false]
    omega
  | true =>
    have hYes := hLeap.mp hCase
    simp only [if_true]
    omega

theorem yearOf_spec (days : Int) :
    daysBeforeYear (yearOf days) ≤ days ∧ days < daysBeforeYear (yearOf days + 1) := by
  generalize hGuess : 1970 + 400 * days / 146097 = guess
  have hYear : yearOf days = if days < daysBeforeYear guess then guess - 1
      else if daysBeforeYear (guess + 1) ≤ days then guess + 1 else guess := by rw [← hGuess]; rfl
  rw [hYear]
  split
  · rename_i hLate
    refine ⟨?_, by rwa [Int.sub_add_cancel]⟩
    simp only [daysBeforeYear] at hLate ⊢
    omega
  · rename_i hNotLate
    split
    · rename_i hEarly
      simp only [daysBeforeYear] at hEarly ⊢
      omega
    · rename_i hNotEarly
      exact ⟨not_lt.mp hNotLate, not_le.mp hNotEarly⟩

theorem monthOf_spec {year yday : Int} (h : 0 ≤ yday) (hYear : yday < 365 + if isLeap year then 1 else 0) :
    daysBeforeMonth year (monthOf year yday : Nat) ≤ yday ∧
      yday ≤ daysBeforeMonth year (monthOf year yday : Nat) + 30 := by
  have hFirst : daysBeforeMonth year ((0 : Nat) : Int) ≤ yday := by
    simpa [daysBeforeMonth] using h
  have hSpec : daysBeforeMonth year (monthOf year yday : Nat) ≤ yday :=
    Nat.findGreatest_spec (P := fun mon => daysBeforeMonth year mon ≤ yday) (Nat.zero_le 11) hFirst
  refine ⟨hSpec, ?_⟩
  have hNext : ∀ mon : Nat, (monthOf year yday : Nat) < mon → mon ≤ 11 → yday < daysBeforeMonth year mon :=
    fun mon hLess hLast => not_le.mp (Nat.findGreatest_is_greatest hLess hLast)
  generalize monthOf year yday = mon at hNext
  have hStep : ∀ mon : Fin 11, daysBeforeMonth year ((mon + 1 : Nat) : Int) ≤ daysBeforeMonth year
      (mon : Nat) + 31 := by
    intro mon
    rw [daysBeforeMonth, daysBeforeMonth]
    cases isLeap year <;> revert mon <;> decide
  rcases Nat.lt_or_ge mon 11 with hEarly | hLast
  · have hLess := hNext (mon + 1) (Nat.lt_succ_self mon) hEarly
    have hDays := hStep ⟨mon, hEarly⟩
    dsimp only at hDays
    omega
  · have hDecember : mon = 11 := Fin.ext (Nat.le_antisymm (Nat.lt_succ_iff.mp mon.isLt) hLast)
    subst hDecember
    have hBefore : daysBeforeMonth year ((11 : Fin 12) : Nat) = 334 + if isLeap year then 1 else 0 := by
      rw [daysBeforeMonth]
      cases isLeap year <;> rfl
    omega

/-- A time is the time of its date. -/
theorem timegm_gmtime (t : Int) : timegm (gmtime t) = t := by
  simp only [timegm, gmtime]
  have hYear : yearOf (t / 86400) - 1900 + 1900 = yearOf (t / 86400) := by omega
  rw [hYear]
  omega

theorem yday_bounds (t : Int) : 0 ≤ t / 86400 - daysBeforeYear (yearOf (t / 86400)) ∧
    t / 86400 - daysBeforeYear (yearOf (t / 86400)) < 365 + if isLeap (yearOf (t / 86400)) then 1 else 0 := by
  obtain ⟨hFirst, hNext⟩ := yearOf_spec (t / 86400)
  rw [daysBeforeYear_succ] at hNext
  constructor <;> omega

theorem gmtime_bounds (t : Int) : (0 ≤ (gmtime t).sec ∧ (gmtime t).sec ≤ 59) ∧
    (0 ≤ (gmtime t).min ∧ (gmtime t).min ≤ 59) ∧ (0 ≤ (gmtime t).hour ∧ (gmtime t).hour ≤ 23) ∧
      (1 ≤ (gmtime t).mday ∧ (gmtime t).mday ≤ 31) := by
  obtain ⟨hLow, hHigh⟩ := yday_bounds t
  have hMonth := monthOf_spec hLow hHigh
  simp only [gmtime]
  refine ⟨?_, ?_, ?_, ?_⟩ <;> omega

theorem gmtime_year_nonneg {t : Int} (h : 0 ≤ t) : 70 ≤ (gmtime t).year := by
  obtain ⟨-, hNext⟩ := yearOf_spec (t / 86400)
  simp only [gmtime]
  by_contra hEarly
  simp only [daysBeforeYear] at hNext
  omega

/-! ## The date of a time -/

theorem decimal_fourDigits {n : Nat} (hLow : 1000 ≤ n) (hHigh : n < 10000) : decimal n = fourDigits n := by
  rw [decimal, Nat.toDigits_eq_if (by decide), if_neg (by omega), Nat.toDigits_eq_if (by decide), if_neg (by omega),
    Nat.toDigits_eq_if (by decide), if_neg (by omega), Nat.toDigits_eq_if (by decide), if_pos (by omega)]
  have hOne : n / 10 / 10 / 10 = n / 100 / 10 := by omega
  have hTwo : n / 10 / 10 % 10 = n / 100 % 10 := by omega
  have hThree : n / 10 % 10 = n % 100 / 10 := by omega
  have hFour : n % 10 = n % 100 % 10 := by omega
  rw [hOne, hTwo, hThree, hFour]
  rfl

/-- The date that `date_time_str` writes. -/
def dateOf (t : Int) (hYear : (gmtime t).year + 1900 < 10000) : HttpDate where
  wkday := wdayOf t
  day := (gmtime t).mday.toNat
  month := monthIndex (gmtime t).mon
  year := ((gmtime t).year + 1900).toNat
  hour := (gmtime t).hour.toNat
  minute := (gmtime t).min.toNat
  second := (gmtime t).sec.toNat
  day_pos := by have := gmtime_bounds t; omega
  day_le := by have := gmtime_bounds t; omega
  year_lt := by omega
  hour_lt := by have := gmtime_bounds t; omega
  minute_lt := by have := gmtime_bounds t; omega
  second_lt := by have := gmtime_bounds t; omega

theorem dateOf_tm {t : Int} (h : 0 ≤ t) (hYear : (gmtime t).year + 1900 < 10000) : (dateOf t hYear).tm = gmtime t := by
  obtain ⟨hSec, hMin, hHour, hDay⟩ := gmtime_bounds t
  have hFirst := gmtime_year_nonneg h
  have hMonth : ((monthIndex (gmtime t).mon : Nat) : Int) = (gmtime t).mon := by
    simp only [monthIndex, gmtime, Int.toNat_natCast, Nat.mod_eq_of_lt (Fin.isLt _)]
  have hYear' : (((gmtime t).year + 1900).toNat : Int) - 1900 = (gmtime t).year := by omega
  simp only [HttpDate.tm, dateOf, hMonth, hYear', Int.toNat_of_nonneg hSec.1, Int.toNat_of_nonneg hMin.1,
    Int.toNat_of_nonneg hHour.1, Int.toNat_of_nonneg (show 0 ≤ (gmtime t).mday by omega)]

theorem dateOf_text {t : Int} (h : 0 ≤ t) (hYear : (gmtime t).year + 1900 < 10000) :
    (dateOf t hYear).text = dateTimeStr t := by
  have hFirst := gmtime_year_nonneg h
  have hDigits : integer ((gmtime t).year + 1900) = fourDigits ((gmtime t).year + 1900).toNat := by
    obtain ⟨n, hn⟩ := Int.eq_ofNat_of_zero_le (show 0 ≤ (gmtime t).year + 1900 by omega)
    rw [hn, Int.toNat_natCast]
    exact decimal_fourDigits (by omega) (by omega)
  rw [dateTimeStr, strftime, hDigits]
  rfl

/-! ## The other forms -/

def weekdayName (i : Fin 7) : Word :=
  ["Sunday", "Monday", "Tuesday", "Wednesday", "Thursday", "Friday", "Saturday"][i].toList

theorem plain_weekdayName (i : Fin 7) : ((weekdayName i).all fun c => c ≠ Char.ofNat 0 && c ≠ ',') = true := by
  revert i
  decide

namespace HttpDate

variable (d : HttpDate)

/-- `00-Mon-00 00:00:00 GMT` -/
def rfc850Day : Word :=
  twoDigits d.day ++ '-' :: (monthName d.month ++ '-' :: (twoDigits (d.year % 100) ++ d.timeText))

/-- `Weekday, 00-Mon-00 00:00:00 GMT` -/
def rfc850Text : Word := weekdayName d.wkday ++ ',' :: ' ' :: d.rfc850Day

/-- A day of the month in two places. -/
def paddedDay : Word := if d.day < 10 then [' ', Nat.digitChar d.day] else twoDigits d.day

/-- `Wkd Mon  0 00:00:00 0000 GMT` -/
def ctimeText : Word :=
  wkdayName d.wkday ++ ' ' :: (monthName d.month ++ ' ' :: (d.paddedDay ++
    ' ' :: (twoDigits d.hour ++ ':' :: (twoDigits d.minute ++ ':' :: (twoDigits d.second ++
      ' ' :: (fourDigits d.year ++ " GMT".toList))))))

/-- The date of the century that has the last two digits of the year in its form. -/
def rfc850Tm : Tm := ⟨d.second, d.minute, d.hour, d.day, (d.month : Nat), (d.year % 100 : Nat)⟩

theorem makeMonth_hyphen (i : Fin 12) (rest : Word) :
    makeMonth ('-' :: (monthName i ++ rest)) = some (((i : Nat) : Int), rest) := by
  rw [← makeMonth_name i rest, makeMonth, makeMonth, List.dropWhile_cons_of_pos (by decide),
    List.dropWhile_cons_of_pos (by decide)]

theorem rfc850_rfc850Day : rfc850 d.rfc850Day = some (timeOf d.rfc850Tm) := by
  have hDay := d.day_le
  have hMonth := (month_found d.month).1
  have hLength : d.rfc850Day.length = 22 := by
    simp [rfc850Day, timeText, twoDigits, hMonth]
  have hFirst := strtol_twoDigits (n := d.day) (by omega)
    (Stops.cons (c := '-') (by decide) (monthName d.month ++ '-' :: (twoDigits (d.year % 100) ++ d.timeText)))
  have hYear := strtol_twoDigits (n := d.year % 100) (by omega) d.stops_timeText
  rw [rfc850, if_neg (by rw [hLength]; omega), rfc850Day, hFirst]
  simp only [makeMonth_hyphen, next, Option.bind_eq_bind, Option.bind_some, hYear, clock_timeText]
  rw [int32_small (by omega), int32_small (by omega), rfc850Tm]

/-- A text behind a weekday and a comma. -/
theorem parseTime_behind (now : Int) {name rest : Word}
    (hName : (name.all fun c => c ≠ Char.ofNat 0 && c ≠ ',') = true) (hNull : Char.ofNat 0 ∉ rest)
    (hBlank : rest.head?.all (· ≠ ' ') = true) :
    parseTime now (name ++ ',' :: ' ' :: rest) = if '-' ∈ rest then rfc850 rest else rfc1123 rest := by
  have hChars : ∀ c ∈ name, c ≠ Char.ofNat 0 ∧ c ≠ ',' := by
    intro c hc
    simpa using List.all_eq_true.mp hName c hc
  have hString : cString (name ++ ',' :: ' ' :: rest) = name ++ ',' :: ' ' :: rest := by
    apply cString_of_no_null
    intro hc
    simp only [List.mem_append, List.mem_cons] at hc
    rcases hc with hIn | hComma | hSpace | hRest
    · exact (hChars _ hIn).1 rfl
    · exact absurd hComma (by decide)
    · exact absurd hSpace (by decide)
    · exact hNull hRest
  have hComma : (name ++ ',' :: ' ' :: rest).dropWhile (· ≠ ',') = ',' :: ' ' :: rest := by
    rw [List.dropWhile_append_of_pos fun c hc => decide_eq_true (hChars c hc).2,
      List.dropWhile_cons_of_neg (by simp)]
  have hBlanks : (' ' :: rest).dropWhile (· = ' ') = rest := by
    rw [List.dropWhile_cons_of_pos (by simp)]
    cases rest with
    | nil => rfl
    | cons c cs => exact List.dropWhile_cons_of_neg (by simpa using hBlank)
  rw [parseTime, hString]
  dsimp only
  rw [if_pos (by simp), hComma, List.tail_cons, hBlanks]

theorem parseTime_rfc850Text (now : Int) : parseTime now d.rfc850Text = some (timeOf d.rfc850Tm) := by
  have hDay := d.day_le
  have hHour := d.hour_lt
  have hMinute := d.minute_lt
  have hSecond := d.second_lt
  have hDigit : ∀ n : Nat, n < 100 → ∀ c ∈ twoDigits n, c ≠ Char.ofNat 0 := by
    rintro n hn c hc rfl
    exact absurd (twoDigits_isDigit hn _ hc) (by decide)
  have hMonth : ∀ c ∈ monthName d.month, c ≠ Char.ofNat 0 := by
    intro c hc
    have hPlain := List.all_eq_true.mp (plain_names d.wkday d.month).2 c hc
    simp only [plain, Bool.and_eq_true, decide_eq_true_eq] at hPlain
    exact hPlain.1
  have hNull : Char.ofNat 0 ∉ d.rfc850Day := by
    intro hc
    simp only [rfc850Day, timeText, List.mem_append, List.mem_cons] at hc
    rcases hc with h | h | h | h | h | h | h | h | h | h | h | h
    · exact hDigit _ (by omega) _ h rfl
    · exact absurd h (by decide)
    · exact hMonth _ h rfl
    · exact absurd h (by decide)
    · exact hDigit _ (by omega) _ h rfl
    · exact absurd h (by decide)
    · exact hDigit _ (by omega) _ h rfl
    · exact absurd h (by decide)
    · exact hDigit _ (by omega) _ h rfl
    · exact absurd h (by decide)
    · exact hDigit _ (by omega) _ h rfl
    · exact absurd h (by decide)
  have hHead : d.rfc850Day.head?.all (· ≠ ' ') = true := by
    simp [rfc850Day, twoDigits]
  rw [rfc850Text, parseTime_behind now (plain_weekdayName d.wkday) hNull hHead, if_pos (by simp [rfc850Day]),
    rfc850_rfc850Day]

theorem timeOf_rfc850Tm (h : 1970 ≤ d.year ∧ d.year ≤ 1999) : timeOf d.rfc850Tm = d.time := by
  have hTm : d.rfc850Tm = d.tm := by
    have hYear : ((d.year % 100 : Nat) : Int) = d.year - 1900 := by omega
    rw [rfc850Tm, hYear, tm]
  rw [hTm, timeOf_tm, if_pos (by omega)]

end HttpDate

/-! ## What is read back -/

/-- Every time is read back, and every date in each of the three forms. -/
def ReadsDates (now : Int) : Prop :=
  (∀ t, 0 ≤ t → (gmtime t).year + 1900 < 10000 → parseTime now (dateTimeStr t) = some t) ∧
    ∀ d : HttpDate, 1970 ≤ d.year → parseTime now d.text = some d.time ∧
      parseTime now d.rfc850Text = some d.time ∧ parseTime now d.ctimeText = some d.time

/-- A year after 2020 is refused, and in the form with two digits one after 1999. -/
theorem parseTime_dates (now : Int) :
    (∀ t, 0 ≤ t → (gmtime t).year + 1900 < 10000 →
      parseTime now (dateTimeStr t) = some (if (gmtime t).year + 1900 ≤ 2020 then t else 0)) ∧
    (∀ d : HttpDate, 1970 ≤ d.year → parseTime now d.text = some (if d.year ≤ 2020 then d.time else 0)) ∧
    ∀ d : HttpDate, 1970 ≤ d.year → d.year ≤ 1999 → parseTime now d.rfc850Text = some d.time := by
  refine ⟨?_, ?_, ?_⟩
  · intro t hNow hYear
    have hFirst := gmtime_year_nonneg hNow
    have hTime : (dateOf t hYear).time = t := by rw [HttpDate.time, dateOf_tm hNow, timegm_gmtime]
    have hDate : (dateOf t hYear).year = ((gmtime t).year + 1900).toNat := rfl
    rw [← dateOf_text hNow hYear, HttpDate.parseTime_text, HttpDate.timeOf_tm, hTime, hDate]
    congr 1
    split <;> split <;> omega
  · intro d hYear
    rw [HttpDate.parseTime_text, HttpDate.timeOf_tm]
    simp only [hYear, true_and]
  · intro d hFirst hLast
    rw [HttpDate.parseTime_rfc850Text, HttpDate.timeOf_rfc850Tm d ⟨hFirst, hLast⟩]

/-- Sunday, 6 November 1994, 08:49:37. -/
def november : HttpDate where
  wkday := ⟨0, by decide⟩
  day := 6
  month := ⟨10, by decide⟩
  year := 1994
  hour := 8
  minute := 49
  second := 37
  day_pos := by decide
  day_le := by decide
  year_lt := by decide
  hour_lt := by decide
  minute_lt := by decide
  second_lt := by decide

theorem november_read : parseTime 0 (dateTimeStr 784111777) = some 784111777 ∧
    parseTime 0 november.text = some 784111777 ∧ parseTime 0 november.rfc850Text = some 784111777 := by
  have hDates := parseTime_dates 0
  exact ⟨hDates.1 784111777 (by decide) (by decide), hDates.2.1 november (by decide),
    hDates.2.2 november (by decide) (by decide)⟩

/-- The same day in the year 2000. -/
def novemberLater : HttpDate := { november with year := 2000, year_lt := by decide }

/-- The first of January 2021 is refused, and a date of 2000 in the form with two digits. -/
theorem later_years_refused : (¬ ∀ now : Int, ReadsDates now) ∧
    ¬ ∀ (now : Int) (d : HttpDate), 1970 ≤ d.year → d.year ≤ 2020 → parseTime now d.rfc850Text = some d.time := by
  constructor
  · intro hAll
    have hRead := (hAll 0).1 1609459200 (by decide) (by decide)
    have hZero : parseTime 0 (dateTimeStr 1609459200) = some 0 := by decide
    rw [hZero] at hRead
    exact absurd hRead (by decide)
  · intro hAll
    have hRead := hAll 0 novemberLater (by decide) (by decide)
    have hZero : parseTime 0 novemberLater.rfc850Text = some 0 := by decide
    rw [hZero] at hRead
    exact absurd hRead (by decide)

end Libdap.Http
