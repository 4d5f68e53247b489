import Libdap.Http.Decimal
import Mathlib.Data.List.Basic
import Mathlib.Data.List.TakeWhile

/-! # Dates as servers write them

The time of a date, and what `parse_time` makes of its text: the time itself for the years from 1970
to 2020, and 0 for any other.
-/

namespace Libdap.Http
open Core Constraint
set_option autoImplicit false

structure HttpDate where
  wkday : Fin 7
  day : Nat
  month : Fin 12
  year : Nat
  hour : Nat
  minute : Nat
  second : Nat
  day_pos : 1 ≤ day
  day_le : day ≤ 31
  year_lt : year < 10000
  hour_lt : hour < 24
  minute_lt : minute < 60
  second_lt : second < 60

def wkdayName (i : Fin 7) : Word :=
  ["Sun", "Mon", "Tue", "Wed", "Thu", "Fri", "Sat"][i].toList

def monthName (i : Fin 12) : Word :=
  ["Jan", "Feb", "Mar", "Apr", "May", "Jun", "Jul", "Aug", "Sep", "Oct", "Nov", "Dec"][i].toList

def twoDigits (n : Nat) : Word := [Nat.digitChar (n / 10), Nat.digitChar (n % 10)]

def fourDigits (n : Nat) : Word := twoDigits (n / 100) ++ twoDigits (n % 100)

namespace HttpDate

variable (d : HttpDate)

def timeText : Word :=
  ' ' :: (twoDigits d.hour ++ ':' :: (twoDigits d.minute ++ ':' :: (twoDigits d.second ++ " GMT".toList)))

def yearText : Word := ' ' :: (fourDigits d.year ++ d.timeText)

def dayText : Word := twoDigits d.day ++ ' ' :: (monthName d.month ++ d.yearText)

/-- `Wkd, 00 Mon 0000 00:00:00 GMT` -/
def text : Word := wkdayName d.wkday ++ ',' :: ' ' :: d.dayText

def tm : Tm := ⟨d.second, d.minute, d.hour, d.day, (d.month : Nat), d.year - 1900⟩

/-- The seconds since 1 January 1970. -/
def time : Int := timegm d.tm

end HttpDate

/-! ## Its parts, read one by one -/

theorem digit_digitChar {k : Nat} (h : k < 10) : isDigit (Nat.digitChar k) = true := by
  interval_cases k <;> rfl

theorem twoDigits_isDigit {n : Nat} (h : n < 100) : ∀ c ∈ twoDigits n, isDigit c = true := by
  intro c hc
  rw [twoDigits, List.mem_cons, List.mem_singleton] at hc
  rcases hc with rfl | rfl
  · exact digit_digitChar (by omega)
  · exact digit_digitChar (by omega)

theorem fourDigits_isDigit {n : Nat} (h : n < 10000) : ∀ c ∈ fourDigits n, isDigit c = true := by
  intro c hc
  rcases List.mem_append.mp hc with hHigh | hLow
  · exact twoDigits_isDigit (by omega) c hHigh
  · exact twoDigits_isDigit (by omega) c hLow

theorem valueOf_twoDigits {n : Nat} (h : n < 100) : valueOf 10 (twoDigits n) = n := by
  have hHigh := digitOf_digitChar (k := n / 10) (by omega)
  have hLow := digitOf_digitChar (k := n % 10) (by omega)
  simp only [valueOf, twoDigits, List.foldl_cons, List.foldl_nil, hHigh, hLow, Option.getD_some]
  omega

theorem valueOf_fourDigits {n : Nat} (h : n < 10000) : valueOf 10 (fourDigits n) = n := by
  have h₁ := digitOf_digitChar (k := n / 100 / 10) (by omega)
  have h₂ := digitOf_digitChar (k := n / 100 % 10) (by omega)
  have h₃ := digitOf_digitChar (k := n % 100 / 10) (by omega)
  have h₄ := digitOf_digitChar (k := n % 100 % 10) (by omega)
  simp only [valueOf, fourDigits, twoDigits, List.cons_append, List.nil_append, List.foldl_cons,
    List.foldl_nil, h₁, h₂, h₃, h₄, Option.getD_some]
  omega

theorem strtol_digits (spaces : Word) {ds rest : Word} (hSpaces : ∀ c ∈ spaces, isSpace c = true)
    (hDigits : ∀ c ∈ ds, isDigit c = true) (hNe : ds ≠ []) (hRest : Stops rest)
    (hSmall : valueOf 10 ds < 10000) :
    strtol (spaces ++ (ds ++ rest)) = ((valueOf 10 ds : Int), rest) := by
  rw [strtol, (decimalNumber_digits spaces hSpaces hDigits hNe hRest).1]
  have hMin : min LONG_MAX (valueOf 10 ds : Int) = valueOf 10 ds := min_eq_right (by
    simp only [LONG_MAX]
    omega)
  simp only [Bool.false_eq_true, if_false, hMin]

theorem strtol_twoDigits {n : Nat} (h : n < 100) {rest : Word} (hRest : Stops rest) :
    strtol (twoDigits n ++ rest) = ((n : Int), rest) := by
  have hRead := strtol_digits [] (by simp) (twoDigits_isDigit h) (by simp [twoDigits]) hRest
    (by rw [valueOf_twoDigits h]; omega)
  rw [valueOf_twoDigits h] at hRead
  exact hRead

theorem int32_small {n : Nat} (h : n < 10000) : int32 n = n :=
  int32_of_bounds (by omega) (by simp only [INT_MAX]; omega)

theorem month_found (i : Fin 12) :
    (monthName i).length = 3 ∧ (monthName i).head?.any isAlpha = true ∧
      (months.findIdx? (· = (monthName i).map Char.toLower)).getD 0 = i := by
  revert i
  decide

theorem makeMonth_name (i : Fin 12) (rest : Word) :
    makeMonth (' ' :: (monthName i ++ rest)) = some (((i : Nat) : Int), rest) := by
  obtain ⟨hLength, hAlpha, hFound⟩ := month_found i
  obtain ⟨a, b, c, hName⟩ := List.length_eq_three.mp hLength
  rw [hName] at hAlpha hFound ⊢
  have hLetter : (!isAlpha a) = false := by simpa using hAlpha
  have hDrop : (' ' :: ([a, b, c] ++ rest)).dropWhile (fun c => !isAlpha c) = a :: b :: c :: rest := by
    rw [List.dropWhile_cons_of_pos (by decide), List.cons_append,
      List.dropWhile_cons_of_neg (by simp [hLetter])]
    rfl
  rw [makeMonth, hDrop]
  dsimp only
  rw [hFound]

/-- Neither the null character nor a hyphen. -/
def plain (c : Char) : Bool := c ≠ Char.ofNat 0 && c ≠ '-'

theorem plain_digit {c : Char} (h : isDigit c = true) : plain c = true := by
  have hLow := ((isDigit_iff c).mp h).1
  simp only [plain, Bool.and_eq_true, decide_eq_true_eq, ne_eq]
  constructor
  · rintro rfl
    exact absurd hLow (by decide)
  · rintro rfl
    exact absurd hLow (by decide)

theorem plain_twoDigits {n : Nat} (h : n < 100) : (twoDigits n).all plain = true :=
  List.all_eq_true.mpr fun c hc => plain_digit (twoDigits_isDigit h c hc)

theorem plain_names (i : Fin 7) (j : Fin 12) :
    ((wkdayName i).all fun c => c ≠ Char.ofNat 0 && c ≠ ',') = true ∧ (monthName j).all plain = true := by
  revert i j
  decide

namespace HttpDate

variable (d : HttpDate)

theorem stops_timeText : Stops d.timeText := Stops.cons (by decide) _

theorem stops_yearText : Stops d.yearText := Stops.cons (by decide) _

theorem clock_timeText :
    clock d.timeText = some ((d.hour : Int), (d.minute : Int), (d.second : Int), " GMT".toList) := by
  have hHour := d.hour_lt
  have hMinute := d.minute_lt
  have hSecond := d.second_lt
  have hBlank : ∀ c ∈ [' '], isSpace c = true := by simp [isSpace]
  have hFirst := strtol_digits [' '] hBlank (twoDigits_isDigit (n := d.hour) (by omega)) (by simp [twoDigits])
    (Stops.cons (c := ':') (by decide) (twoDigits d.minute ++ ':' :: (twoDigits d.second ++ " GMT".toList)))
    (by rw [valueOf_twoDigits (by omega)]; omega)
  rw [valueOf_twoDigits (by omega)] at hFirst
  have hSecondPart := strtol_twoDigits (n := d.minute) (by omega)
    (Stops.cons (c := ':') (by decide) (twoDigits d.second ++ " GMT".toList))
  have hThird := strtol_twoDigits (n := d.second) (by omega) (Stops.cons (c := ' ') (by decide) "GMT".toList)
  rw [clock, timeText]
  rw [List.singleton_append] at hFirst
  rw [hFirst]
  simp only [next, Option.bind_eq_bind, Option.bind_some, hSecondPart]
  change some (int32 _, int32 _, int32 (strtol (twoDigits d.second ++ ' ' :: "GMT".toList)).1,
    (strtol (twoDigits d.second ++ ' ' :: "GMT".toList)).2) = _
  rw [hThird, int32_small (by omega), int32_small (by omega), int32_small (by omega)]
  rfl

theorem length_dayText : d.dayText.length = 24 := by
  have hMonth := (month_found d.month).1
  simp [dayText, yearText, timeText, twoDigits, fourDigits, hMonth]

theorem rfc1123_dayText : rfc1123 d.dayText = some (timeOf d.tm) := by
  have hDay := d.day_le
  have hYear := d.year_lt
  have hBlank : ∀ c ∈ [' '], isSpace c = true := by simp [isSpace]
  have hFirst := strtol_twoDigits (n := d.day) (by omega)
    (Stops.cons (c := ' ') (by decide) (monthName d.month ++ d.yearText))
  have hYearRead := strtol_digits [' '] hBlank (fourDigits_isDigit hYear) (by simp [fourDigits, twoDigits])
    d.stops_timeText (by rw [valueOf_fourDigits hYear]; exact hYear)
  rw [valueOf_fourDigits hYear, List.singleton_append] at hYearRead
  rw [rfc1123, if_neg (by rw [length_dayText]; omega), dayText, hFirst]
  simp only [makeMonth_name, Option.bind_eq_bind, Option.bind_some]
  rw [yearText, hYearRead]
  simp only [clock_timeText, Option.bind_some]
  rw [int32_small (by omega), int32_of_bounds (by omega) (by simp only [INT_MAX]; omega), tm]

theorem plain_dayText : d.dayText.all plain = true := by
  have hDay := d.day_le
  have hYear := d.year_lt
  have hHour := d.hour_lt
  have hMinute := d.minute_lt
  have hSecond := d.second_lt
  simp only [dayText, yearText, timeText, fourDigits, List.all_append, List.all_cons, Bool.and_eq_true]
  rw [plain_twoDigits (by omega), plain_twoDigits (by omega), plain_twoDigits (by omega),
    plain_twoDigits (by omega), plain_twoDigits (by omega), plain_twoDigits (by omega),
    (plain_names d.wkday d.month).2]
  decide

/-- The text is read as the date that it is, if its year is not refused. -/
theorem parseTime_text (now : Int) : parseTime now d.text = some (timeOf d.tm) := by
  have hDay := d.day_le
  have hBody : ∀ c ∈ d.dayText, c ≠ Char.ofNat 0 ∧ c ≠ '-' := by
    intro c hc
    simpa [plain] using List.all_eq_true.mp d.plain_dayText c hc
  have hWkday : ∀ c ∈ wkdayName d.wkday, c ≠ Char.ofNat 0 ∧ c ≠ ',' := by
    intro c hc
    simpa using List.all_eq_true.mp (plain_names d.wkday d.month).1 c hc
  have hString : cString d.text = d.text := by
    rw [cString, List.takeWhile_eq_self_iff]
    intro c hc
    rw [text, List.mem_append, List.mem_cons, List.mem_cons] at hc
    apply decide_eq_true
    rcases hc with hName | rfl | rfl | hRest
    · exact (hWkday c hName).1
    · decide
    · decide
    · exact (hBody c hRest).1
  have hComma : d.text.dropWhile (· ≠ ',') = ',' :: ' ' :: d.dayText := by
    rw [text, List.dropWhile_append_of_pos fun c hc => decide_eq_true (hWkday c hc).2,
      List.dropWhile_cons_of_neg (by simp)]
  have hBlanks : (' ' :: d.dayText).dropWhile (· = ' ') = d.dayText := by
    have hDigit := digit_digitChar (k := d.day / 10) (by omega)
    have hNot : Nat.digitChar (d.day / 10) ≠ ' ' := by
      intro hEq
      rw [hEq] at hDigit
      exact absurd hDigit (by decide)
    rw [List.dropWhile_cons_of_pos (by simp), dayText, twoDigits, List.cons_append,
      List.dropWhile_cons_of_neg (by simp [hNot])]
  have hMem : ',' ∈ d.text := by simp [text]
  have hHyphen : '-' ∉ d.dayText := fun hc => (hBody _ hc).2 rfl
  rw [parseTime, hString]
  dsimp only
  rw [if_pos hMem, hComma, List.tail_cons, hBlanks, if_neg hHyphen, rfc1123_dayText]

/-! ## The time of a date -/

theorem timeOf_tm : timeOf d.tm = if 1970 ≤ d.year ∧ d.year ≤ 2020 then d.time else 0 := by
  have hHour := d.hour_lt
  have hMinute := d.minute_lt
  have hSecond := d.second_lt
  have hDay := d.day_le
  have hFirst := d.day_pos
  have hMonth := d.month.isLt
  have hLegal : Legal d.tm ↔ 1970 ≤ d.year ∧ d.year ≤ 2020 := by
    simp only [Legal, tm]
    omega
  simp only [timeOf, hLegal, time]

theorem daysBeforeMonth_bounds (year : Int) (i : Fin 12) :
    0 ≤ daysBeforeMonth year (i : Nat) ∧
      daysBeforeMonth year (i : Nat) ≤ 334 + if isLeap year then 1 else 0 := by
  have hTable : 0 ≤ ([0, 31, 59, 90, 120, 151, 181, 212, 243, 273, 304, 334].getD ((i : Nat) : Int).toNat 0 : Int) ∧
      ([0, 31, 59, 90, 120, 151, 181, 212, 243, 273, 304, 334].getD ((i : Nat) : Int).toNat 0 : Int) ≤ 334 := by
    revert i
    decide
  rw [daysBeforeMonth]
  cases isLeap year <;> split <;> simp_all <;> omega

theorem isLeap_iff (year : Int) : isLeap year = true ↔ year % 4 = 0 ∧ (year % 100 ≠ 0 ∨ year % 400 = 0) := by
  simp [isLeap]

/-- A date before 1970 is before the epoch, and one after 2020 is long after it. -/
theorem time_bounds :
    (1970 ≤ d.year → 0 ≤ d.time) ∧ (2021 ≤ d.year → 1073741824 ≤ d.time) ∧ (d.year < 1970 → d.time < 0) := by
  have hHour := d.hour_lt
  have hMinute := d.minute_lt
  have hSecond := d.second_lt
  have hDay := d.day_le
  have hFirst := d.day_pos
  have hMonth := daysBeforeMonth_bounds ((d.year : Int) - 1900 + 1900) d.month
  have hLeap := isLeap_iff ((d.year : Int) - 1900 + 1900)
  rw [time, timegm]
  simp only [tm, daysBeforeYear]
  generalize daysBeforeMonth ((d.year : Int) - 1900 + 1900) (d.month : Nat) = days at hMonth ⊢
  cases hCase : isLeap ((d.year : Int) - 1900 + 1900) with
  | false =>
    simp only [hCase, Bool.false_eq_true, if_false] at hMonth
    refine ⟨?_, ?_, ?_⟩ <;> omega
  | true =>
    simp only [hCase, if_true] at hMonth
    have hFour := (hLeap.mp hCase).1
    refine ⟨?_, ?_, ?_⟩ <;> omega

end HttpDate

end Libdap.Http
