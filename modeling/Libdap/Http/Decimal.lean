import Libdap.Constraint.Word
import Mathlib.Data.List.TakeWhile
import Mathlib.Tactic.IntervalCases

/-! # Numbers printed in decimal and read again -/

namespace Libdap.Http
open Core Constraint
set_option autoImplicit false

def isDigit (c : Char) : Bool := isDigitOf 10 c

/-- The number that a text starts with, after blanks and a sign, and what follows it. -/
def decimalNumber (s : Word) : Option (Bool × Nat × Word) := number (fun cs => (10, cs)) s

/-- What `%lu` prints. -/
def decimal (n : Nat) : Word := Nat.toDigits 10 n

/-- What `%ld` prints. -/
def integer : Int → Word
  | .ofNat n => decimal n
  | .negSucc n => '-' :: decimal (n + 1)

/-- No digit is in front. -/
def Stops (rest : Word) : Prop := ∀ c cs, rest = c :: cs → isDigit c = false

theorem Stops.nil : Stops [] := nofun

theorem Stops.cons {c : Char} (h : isDigit c = false) (cs : Word) : Stops (c :: cs) := by
  rintro _ _ ⟨⟩
  exact h

theorem isDigit_iff (c : Char) : isDigit c = true ↔ '0' ≤ c ∧ c ≤ '9' := by
  rw [isDigit, isDigitOf, digitOf]
  split
  · rename_i hDigit
    have hHigh : c.toNat ≤ '9'.toNat := hDigit.2
    simp only [Option.any_some, decide_eq_true_eq, hDigit, and_self, iff_true]
    change c.toNat ≤ 57 at hHigh
    change c.toNat - 48 < 10
    omega
  · rename_i hNot
    split
    · simp [hNot]
    · split <;> simp [hNot]

theorem isDigit_eq (c : Char) : isDigit c = c.isDigit := by
  rw [Bool.eq_iff_iff, isDigit_iff, Char.isDigit, Bool.and_eq_true, decide_eq_true_eq, decide_eq_true_eq]
  rfl

theorem digitOf_of_isDigit {c : Char} (h : isDigit c = true) : digitOf c = some (c.toNat - '0'.toNat) := by
  rw [digitOf, if_pos ((isDigit_iff c).mp h)]

theorem digit_not_space {c : Char} (h : isDigit c = true) : isSpace c = false := by
  obtain ⟨hLow, hHigh⟩ := (isDigit_iff c).mp h
  have hCode : 48 ≤ c.toNat ∧ c.toNat ≤ 57 := ⟨hLow, hHigh⟩
  have hNe : ∀ d : Char, d.toNat < 48 → c ≠ d := by
    rintro d hd rfl
    omega
  simp only [isSpace, Bool.or_eq_false_iff, decide_eq_false_iff_not]
  refine ⟨⟨⟨⟨⟨hNe _ (by decide), hNe _ (by decide)⟩, hNe _ (by decide)⟩, hNe _ (by decide)⟩, ?_⟩, ?_⟩ <;> omega

theorem valueOf_append_one (ds : Word) (c : Char) :
    valueOf 10 (ds ++ [c]) = valueOf 10 ds * 10 + (digitOf c).getD 0 := by
  rw [valueOf, List.foldl_append]
  rfl

theorem digits_of_decimal (n : Nat) : ∀ c ∈ decimal n, isDigit c = true := by
  intro c hc
  rw [isDigit_eq]
  exact Nat.isDigit_of_mem_toDigits (by decide) (by decide) hc

theorem decimal_ne_nil (n : Nat) : decimal n ≠ [] := Nat.toDigits_ne_nil

theorem digitOf_digitChar {k : Nat} (h : k < 10) : digitOf (Nat.digitChar k) = some k := by
  interval_cases k <;> rfl

theorem valueOf_decimal (n : Nat) : valueOf 10 (decimal n) = n := by
  induction n using Nat.strong_induction_on with
  | _ n ih =>
    rw [decimal, Nat.toDigits_eq_if (by decide)]
    split
    · rename_i hSmall
      rw [← List.nil_append [_], valueOf_append_one, digitOf_digitChar hSmall]
      simp [valueOf]
    · rename_i hLarge
      have hRest := ih (n / 10) (by omega)
      rw [decimal] at hRest
      rw [valueOf_append_one, hRest, digitOf_digitChar (Nat.mod_lt n (by decide))]
      simp only [Option.getD_some]
      omega

theorem Stops.takeWhile {rest : Word} (h : Stops rest) : rest.takeWhile (isDigitOf 10) = [] := by
  cases rest with
  | nil => rfl
  | cons c cs => exact List.takeWhile_cons_of_neg (by simpa [isDigit] using h c cs rfl)

theorem Stops.dropWhile {rest : Word} (h : Stops rest) : rest.dropWhile (isDigitOf 10) = rest := by
  cases rest with
  | nil => rfl
  | cons c cs => exact List.dropWhile_cons_of_neg (by simpa [isDigit] using h c cs rfl)

theorem sign_of_digit {c : Char} (h : isDigit c = true) (cs : Word) : sign (c :: cs) = (false, c :: cs) := by
  have hCode := ((isDigit_iff c).mp h).1
  rw [sign]
  · rintro _ ⟨⟩
    exact absurd hCode (by decide)
  · rintro _ ⟨⟩
    exact absurd hCode (by decide)

/-- A number is read up to what stops it. -/
theorem decimalNumber_digits (spaces : Word) {ds rest : Word} (hSpaces : ∀ c ∈ spaces, isSpace c = true)
    (hDigits : ∀ c ∈ ds, isDigit c = true) (hNe : ds ≠ []) (hRest : Stops rest) :
    decimalNumber (spaces ++ (ds ++ rest)) = some (false, valueOf 10 ds, rest) ∧
    decimalNumber (spaces ++ '-' :: (ds ++ rest)) = some (true, valueOf 10 ds, rest) := by
  have hAll : ∀ c ∈ ds, isDigitOf 10 c = true := hDigits
  have hTake : (ds ++ rest).takeWhile (isDigitOf 10) = ds := by
    rw [List.takeWhile_append_of_pos hAll, hRest.takeWhile, List.append_nil]
  have hDrop : (ds ++ rest).dropWhile (isDigitOf 10) = rest := by
    rw [List.dropWhile_append_of_pos hAll, hRest.dropWhile]
  have hSome : ds.isEmpty = false := by simpa using hNe
  constructor
  · have hSign : sign ((spaces ++ (ds ++ rest)).dropWhile isSpace) = (false, ds ++ rest) := by
      rw [List.dropWhile_append_of_pos hSpaces]
      cases ds with
      | nil => exact absurd rfl hNe
      | cons c ds =>
        have hDigit := hDigits c List.mem_cons_self
        rw [List.cons_append, List.dropWhile_cons_of_neg (by simp [digit_not_space hDigit]),
          sign_of_digit hDigit]
    rw [decimalNumber, number, hSign]
    simp only [hTake, hDrop, hSome, Bool.false_eq_true, if_false]
  · have hSign : sign ((spaces ++ '-' :: (ds ++ rest)).dropWhile isSpace) = (true, ds ++ rest) := by
      rw [List.dropWhile_append_of_pos hSpaces]
      rfl
    rw [decimalNumber, number, hSign]
    simp only [hTake, hDrop, hSome, Bool.false_eq_true, if_false]

end Libdap.Http

/-! ## Times in header lines

`parse_time` walks through a C string with `strtol` and single steps. A step past the terminating null
character has no defined result; neither has a number of seconds that does not fit.
-/

namespace Libdap.Http
open Core Constraint
set_option autoImplicit false

/-- A C string's characters. -/
def cString (s : Word) : Word := s.takeWhile fun c => c ≠ Char.ofNat 0

theorem cString_of_no_null {s : Word} (h : Char.ofNat 0 ∉ s) : cString s = s := by
  rw [cString, List.takeWhile_eq_self_iff]
  rintro c hc
  apply decide_eq_true
  rintro rfl
  exact h hc

def isAlpha (c : Char) : Bool := ('a' ≤ c && c ≤ 'z') || ('A' ≤ c && c ≤ 'Z')

/-- `strtol (s, &s, 10)` -/
def strtol (s : Word) : Int × Word :=
  match decimalNumber s with
  | none => (0, s)
  | some (negative, v, rest) => (if negative then max (-LONG_MAX - 1) (-v) else min LONG_MAX v, rest)

/-- `++s` -/
def next : Word → Option Word
  | [] => none
  | _ :: cs => some cs

def months : List Word :=
  ["jan".toList, "feb".toList, "mar".toList, "apr".toList, "may".toList, "jun".toList, "jul".toList,
    "aug".toList, "sep".toList, "oct".toList, "nov".toList, "dec".toList]

/-- `make_month`: the first three characters from a letter on. What is no month counts as the first. -/
def makeMonth (s : Word) : Option (Int × Word) :=
  match s.dropWhile fun c => !isAlpha c with
  | a :: b :: c :: rest => some ((months.findIdx? (· = [a, b, c].map Char.toLower)).getD 0, rest)
  | _ => none

structure Tm where
  sec : Int
  min : Int
  hour : Int
  mday : Int
  mon : Int
  year : Int
  deriving DecidableEq, Repr

def isLeap (year : Int) : Bool := year % 4 = 0 && (year % 100 ≠ 0 || year % 400 = 0)

/-- The days of a year before its month. -/
def daysBeforeMonth (year mon : Int) : Int :=
  ([0, 31, 59, 90, 120, 151, 181, 212, 243, 273, 304, 334].getD mon.toNat 0 : Int) +
    if 1 < mon ∧ isLeap year then 1 else 0

/-- The days from 1 January 1970 to the first of January of the year. -/
def daysBeforeYear (year : Int) : Int :=
  365 * (year - 1970) + (year - 1969) / 4 - (year - 1901) / 100 + (year - 1601) / 400

def timegm (tm : Tm) : Int :=
  86400 * (daysBeforeYear (tm.year + 1900) + daysBeforeMonth (tm.year + 1900) tm.mon + (tm.mday - 1)) +
    3600 * tm.hour + 60 * tm.min + tm.sec

def Legal (tm : Tm) : Prop :=
  (0 ≤ tm.sec ∧ tm.sec ≤ 59) ∧ (0 ≤ tm.min ∧ tm.min ≤ 59) ∧ (0 ≤ tm.hour ∧ tm.hour ≤ 23) ∧
    (1 ≤ tm.mday ∧ tm.mday ≤ 31) ∧ (0 ≤ tm.mon ∧ tm.mon ≤ 11) ∧ (70 ≤ tm.year ∧ tm.year ≤ 120)

instance (tm : Tm) : Decidable (Legal tm) := inferInstanceAs (Decidable (_ ∧ _))

def timeOf (tm : Tm) : Int := if Legal tm then timegm tm else 0

/-- `hh:mm:ss`, and what is behind it. -/
def clock (s : Word) : Option (Int × Int × Int × Word) := do
  let (hour, s) := strtol s
  let s ← next s
  let (min, s) := strtol s
  let s ← next s
  let (sec, s) := strtol s
  some (int32 hour, int32 min, int32 sec, s)

/-- `Weekday, 00-Mon-00 00:00:00 GMT`, from the day on. -/
def rfc850 (s : Word) : Option Int :=
  if s.length < 18 then some 0
  else do
    let (mday, s) := strtol s
    let (mon, s) ← makeMonth s
    let s ← next s
    let (year, s) := strtol s
    let (hour, min, sec, _) ← clock s
    some (timeOf ⟨sec, min, hour, int32 mday, mon, int32 year⟩)

/-- `Wkd, 00 Mon 0000 00:00:00 GMT`, from the day on. -/
def rfc1123 (s : Word) : Option Int :=
  if s.length < 20 then some 0
  else do
    let (mday, s) := strtol s
    let (mon, s) ← makeMonth s
    let (year, s) := strtol s
    let (hour, min, sec, _) ← clock s
    some (timeOf ⟨sec, min, hour, int32 mday, mon, int32 (year - 1900)⟩)

/-- `YYYY.MM.DDThh:mmStzWkd` -/
def isoTime (s : Word) : Option Int :=
  if s.length < 21 then some 0
  else do
    let (year, s) := strtol s
    let s ← next s
    let (mon, s) := strtol s
    let s ← next s
    let (mday, s) := strtol s
    let s ← next s
    let (hour, min, sec, _) ← clock s
    some (timeOf ⟨sec, min, hour, int32 mday, int32 mon, int32 (year - 1900)⟩)

/-- `Wkd Mon 00 00:00:00 0000 GMT` -/
def ctimeFormat (s : Word) : Option Int :=
  let s := s.dropWhile (· = ' ')
  if s.length < 24 then some 0
  else do
    let (mon, s) ← makeMonth s
    let (mday, s) := strtol s
    let (hour, min, sec, s) ← clock s
    let (year, _) := strtol s
    some (timeOf ⟨sec, min, hour, int32 mday, mon, int32 (year - 1900)⟩)

/-- `time (NULL) + atol (str)` for a word of digits and what follows them. -/
def deltaSeconds (now : Int) (str : Word) : Option Int :=
  match decimalNumber str with
  | none => some now
  | some (_, v, _) => if now + v ≤ LONG_MAX then some (now + v) else none

/-- `parse_time`, with its default for `expand`. -/
def parseTime (now : Int) (value : Word) : Option Int :=
  let str := cString value
  if ',' ∈ str then
    let s := (str.dropWhile (· ≠ ',')).tail.dropWhile (· = ' ')
    if '-' ∈ s then rfc850 s else rfc1123 s
  else if str.head?.any isDigit then
    if 'T' ∈ str then isoTime str else deltaSeconds now str
  else ctimeFormat str

end Libdap.Http
