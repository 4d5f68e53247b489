import Libdap.Http.CacheEntry
import Libdap.Http.HttpDate

/-! # Freshness and age of a response

What `parse_headers` and `calculate_time` make of a response's Date, Age and max-age, beside what the
protocol says of them.
-/

namespace Libdap.Http
open Core Constraint
set_option autoImplicit false

/-- The lines whose value is read as a time. -/
def readsTime (line : Word) : Bool :=
  match headerOf line with
  | (.lastModified, _) => true
  | (.expires, _) => true
  | (.date, _) => true
  | (.age, _) => true
  | (.cacheControl, value) => mentionsMaxAge value
  | _ => false

/-- The line is read without a step past its end. -/
def Readable (now : Int) (line : Word) : Prop :=
  readsTime line = true → ∃ t, parseTime now (headerOf line).2 = some t

variable {now : Int} {maxEntrySize : Nat}

theorem find_nil (value : Word) : find [] value = some 0 := by
  cases value <;> rfl

theorem cacheControl_maxAge {value : Word} (h : mentionsMaxAge value = true) (e : CacheEntry) :
    cacheControl now e value = (parseTime now value).map fun t => { e with maxAge := t } := by
  have hNot : ∀ other : Word, mentionsMaxAge other = false → value ≠ other := by
    rintro other hOther rfl
    rw [h] at hOther
    cases hOther
  have hEmpty : equalsPlusOne = [] := rfl
  rw [cacheControl, if_neg, if_neg, if_pos h, hEmpty, find_nil]
  · rfl
  · exact hNot _ (by decide)
  · rintro (hEq | hEq)
    · exact hNot _ (by decide) hEq
    · exact hNot _ (by decide) hEq

theorem cacheControl_other (now : Int) {value : Word} (h : mentionsMaxAge value = false) (e : CacheEntry) :
    ∃ e', cacheControl now e value = some e' ∧ e'.date = e.date ∧ e'.age = e.age ∧ e'.maxAge = e.maxAge := by
  rw [cacheControl]
  split
  · exact ⟨_, rfl, rfl, rfl, rfl⟩
  · split
    · exact ⟨_, rfl, rfl, rfl, rfl⟩
    · rw [if_neg (by simp [h])]
      exact ⟨_, rfl, rfl, rfl, rfl⟩

/-- The line sets the entry's date, its age or its max-age. -/
def setsDate (line : Word) : Prop := (headerOf line).1 = .date

def setsAge (line : Word) : Prop := (headerOf line).1 = .age

def setsMaxAge (line : Word) : Prop :=
  (headerOf line).1 = .cacheControl ∧ mentionsMaxAge (headerOf line).2 = true

instance (line : Word) : Decidable (setsDate line) := inferInstanceAs (Decidable (_ = _))

instance (line : Word) : Decidable (setsAge line) := inferInstanceAs (Decidable (_ = _))

instance (line : Word) : Decidable (setsMaxAge line) := inferInstanceAs (Decidable (_ ∧ _))

/-- What a line does to one of these fields. -/
structure FieldRead (now : Int) (line : Word) (sets : Prop) (old new : Int) : Prop where
  set : sets → parseTime now (headerOf line).2 = some new
  kept : ¬ sets → new = old

structure LineRead (now : Int) (line : Word) (e e' : CacheEntry) : Prop where
  date : FieldRead now line (setsDate line) e.date e'.date
  age : FieldRead now line (setsAge line) e.age e'.age
  maxAge : FieldRead now line (setsMaxAge line) e.maxAge e'.maxAge

theorem FieldRead.of_set {line : Word} {sets : Prop} {old new : Int} (hSets : sets)
    (h : parseTime now (headerOf line).2 = some new) : FieldRead now line sets old new :=
  ⟨fun _ => h, fun hNot => absurd hSets hNot⟩

theorem FieldRead.of_kept {line : Word} {sets : Prop} {old new : Int} (hSets : ¬ sets) (h : new = old) :
    FieldRead now line sets old new := ⟨fun hDoes => absurd hDoes hSets, fun _ => h⟩

theorem readsTime_of_setsMaxAge {line : Word} (h : setsMaxAge line) : readsTime line = true := by
  rcases hHeader : headerOf line with ⟨header, value⟩
  rw [setsMaxAge, hHeader] at h
  obtain ⟨rfl, hMentions⟩ := h
  rw [readsTime, hHeader]
  exact hMentions

theorem parseHeader_read {e e' : CacheEntry} {line : Word}
    (h : parseHeader now maxEntrySize e line = some e') : LineRead now line e e' := by
  rw [parseHeader] at h
  rcases hHeader : headerOf line with ⟨header, value⟩
  have hNone : header ≠ .date → header ≠ .age → ¬ setsMaxAge line →
      (e'.date = e.date ∧ e'.age = e.age ∧ e'.maxAge = e.maxAge) → LineRead now line e e' := by
    rintro hDate hAge hControl ⟨hd, ha, hm⟩
    refine ⟨.of_kept ?_ hd, .of_kept ?_ ha, .of_kept hControl hm⟩
    · simpa [setsDate, hHeader] using hDate
    · simpa [setsAge, hHeader] using hAge
  have hNoMaxAge : header ≠ .cacheControl → ¬ setsMaxAge line := by
    intro hNot hSets
    exact hNot (by simpa [hHeader] using hSets.1)
  rw [hHeader] at h
  cases header with
  | etag =>
    cases h
    exact hNone nofun nofun (hNoMaxAge nofun) ⟨rfl, rfl, rfl⟩
  | lastModified =>
    obtain ⟨t, _, rfl⟩ := Option.map_eq_some_iff.mp h
    exact hNone nofun nofun (hNoMaxAge nofun) ⟨rfl, rfl, rfl⟩
  | expires =>
    obtain ⟨t, _, rfl⟩ := Option.map_eq_some_iff.mp h
    exact hNone nofun nofun (hNoMaxAge nofun) ⟨rfl, rfl, rfl⟩
  | date =>
    obtain ⟨t, hTime, rfl⟩ := Option.map_eq_some_iff.mp h
    refine ⟨.of_set ?_ ?_, .of_kept ?_ rfl, .of_kept (hNoMaxAge nofun) rfl⟩
    · simp [setsDate, hHeader]
    · rw [hHeader]
      exact hTime
    · simp [setsAge, hHeader]
  | age =>
    obtain ⟨t, hTime, rfl⟩ := Option.map_eq_some_iff.mp h
    refine ⟨.of_kept ?_ rfl, .of_set ?_ ?_, .of_kept (hNoMaxAge nofun) rfl⟩
    · simp [setsDate, hHeader]
    · simp [setsAge, hHeader]
    · rw [hHeader]
      exact hTime
  | contentLength =>
    cases h
    refine hNone nofun nofun (hNoMaxAge nofun) ?_
    split <;> exact ⟨rfl, rfl, rfl⟩
  | cacheControl =>
    dsimp only at h
    cases hMentions : mentionsMaxAge value with
    | true =>
      rw [cacheControl_maxAge hMentions] at h
      obtain ⟨t, hTime, rfl⟩ := Option.map_eq_some_iff.mp h
      refine ⟨.of_kept ?_ rfl, .of_kept ?_ rfl, .of_set ⟨?_, ?_⟩ ?_⟩
      · simp [setsDate, hHeader]
      · simp [setsAge, hHeader]
      · rw [hHeader]
      · rw [hHeader]
        exact hMentions
      · rw [hHeader]
        exact hTime
    | false =>
      obtain ⟨e₁, hSome, hKept⟩ := cacheControl_other now hMentions e
      rw [h] at hSome
      cases hSome
      refine hNone nofun nofun ?_ hKept
      rintro ⟨_, hSets⟩
      rw [hHeader, hMentions] at hSets
      cases hSets
  | other =>
    cases h
    exact hNone nofun nofun (hNoMaxAge nofun) ⟨rfl, rfl, rfl⟩

theorem parseHeader_isSome {line : Word} (maxEntrySize : Nat) (e : CacheEntry) :
    (∃ e', parseHeader now maxEntrySize e line = some e') ↔ Readable now line := by
  rw [parseHeader, Readable, readsTime]
  rcases headerOf line with ⟨header, value⟩
  cases header with
  | etag => simp
  | lastModified => simp
  | expires => simp
  | date => simp
  | age => simp
  | contentLength => simp
  | cacheControl =>
    dsimp only
    cases hMentions : mentionsMaxAge value with
    | true => simp [cacheControl_maxAge hMentions]
    | false =>
      obtain ⟨e', hSome, _⟩ := cacheControl_other now hMentions e
      simp [hSome]
  | other => simp

/-! ## All lines -/

theorem parseHeaders_isSome {headers : List Word} (maxEntrySize : Nat) (e : CacheEntry) :
    (∃ e', parseHeaders now maxEntrySize e headers = some e') ↔ ∀ line ∈ headers, Readable now line := by
  induction headers generalizing e with
  | nil => simp [parseHeaders]
  | cons line headers ih =>
    rw [List.forall_mem_cons, ← parseHeader_isSome maxEntrySize e, parseHeaders,
      List.foldlM_cons]
    constructor
    · rintro ⟨e', h⟩
      obtain ⟨e₁, hLine, hRest⟩ := Option.bind_eq_some_iff.mp h
      exact ⟨⟨e₁, hLine⟩, (ih e₁).mp ⟨e', hRest⟩⟩
    · rintro ⟨⟨e₁, hLine⟩, hRest⟩
      obtain ⟨e', h⟩ := (ih e₁).mpr hRest
      exact ⟨e', Option.bind_eq_some_iff.mpr ⟨e₁, hLine, h⟩⟩

/-- A field that some of the lines set, all to the same time. -/
theorem parseHeaders_field {headers : List Word} (field : CacheEntry → Int) {sets : Word → Prop}
    {value : Word} {e e' : CacheEntry}
    (hField : ∀ line e e', LineRead now line e e' → FieldRead now line (sets line) (field e) (field e'))
    (hValue : ∀ line ∈ headers, sets line → (headerOf line).2 = value)
    (hMem : (∃ line ∈ headers, sets line) ∨ parseTime now value = some (field e))
    (h : parseHeaders now maxEntrySize e headers = some e') : parseTime now value = some (field e') := by
  induction headers generalizing e with
  | nil =>
    cases h
    exact hMem.resolve_left (by simp)
  | cons line headers ih =>
    rw [parseHeaders, List.foldlM_cons] at h
    obtain ⟨e₁, hLine, hRest⟩ := Option.bind_eq_some_iff.mp h
    have hRead := hField line e e₁ (parseHeader_read hLine)
    apply ih (fun l hl => hValue l (List.mem_cons_of_mem line hl)) ?_ hRest
    by_cases hSets : sets line
    · right
      rw [← hValue line List.mem_cons_self hSets]
      exact hRead.set hSets
    · rw [hRead.kept hSets]
      apply hMem.imp_left
      rintro ⟨l, hl, hDoes⟩
      rcases List.mem_cons.mp hl with rfl | hTail
      · exact absurd hDoes hSets
      · exact ⟨l, hTail, hDoes⟩

/-- A response with this date, this age in seconds and this value of Cache-Control. A header that is
there twice is there twice with the same value. -/
structure Response (headers : List Word) (date : HttpDate) (age control : Word) : Prop where
  dated : ∃ line ∈ headers, setsDate line
  date_eq : ∀ line ∈ headers, setsDate line → (headerOf line).2 = date.text
  aged : ∃ line ∈ headers, setsAge line
  age_eq : ∀ line ∈ headers, setsAge line → (headerOf line).2 = age
  controlled : ∃ line ∈ headers, setsMaxAge line
  control_eq : ∀ line ∈ headers, setsMaxAge line → (headerOf line).2 = control
  age_ne_nil : age ≠ []
  age_digits : ∀ c ∈ age, isDigit c = true

/-- `max-age=m` is one of the directives. -/
def HasMaxAge (control m : Word) : Prop :=
  ∃ before blanks blanks' after,
    control = before ++ (blanks ++ ("max-age=".toList ++ (m ++ (blanks' ++ after)))) ∧
    (before = [] ∨ ∃ b, before = b ++ [',']) ∧ (after = [] ∨ ∃ b, after = ',' :: b) ∧
    (∀ c ∈ blanks ++ blanks', c = ' ') ∧ m ≠ [] ∧ ∀ c ∈ m, isDigit c = true

/-- What the protocol says of the entry, for max-age `m`, age `a`, date `d`, and the times of the response
and of the request. -/
structure Rfc2616 (e : CacheEntry) (m a d responseTime requestTime : Int) : Prop where
  freshness : e.freshnessLifetime = m
  age : e.correctedInitialAge = max (max 0 (responseTime - d)) a + (responseTime - requestTime)
  valid : ∀ t, e.mustRevalidate = false →
    (isValid .none t e = true ↔
      m > max (max 0 (responseTime - d)) a + (responseTime - requestTime) + (t - responseTime))

/-- The clock is past 1970, and the entry is finished soon after its headers are read. -/
structure Clock (now responseTime : Int) : Prop where
  pos : 0 < now
  le : now ≤ responseTime
  soon : responseTime < now + 1073741824
  fits : responseTime ≤ LONG_MAX

theorem cString_digits {ds : Word} (hDigits : ∀ c ∈ ds, isDigit c = true) : cString ds = ds := by
  rw [cString, List.takeWhile_eq_self_iff]
  intro c hc
  have hPlain := plain_digit (hDigits c hc)
  rw [plain, Bool.and_eq_true] at hPlain
  exact hPlain.1

theorem parseTime_digits {ds : Word} (hDigits : ∀ c ∈ ds, isDigit c = true) (hNe : ds ≠ []) :
    parseTime now ds =
      if now + valueOf 10 ds ≤ LONG_MAX then some (now + valueOf 10 ds) else none := by
  have hNot : ∀ c : Char, isDigit c = false → c ∉ ds := by
    intro c hc hMem
    rw [hDigits c hMem] at hc
    cases hc
  have hHead : ds.head?.any isDigit = true := by
    cases ds with
    | nil => exact absurd rfl hNe
    | cons c cs => exact hDigits c List.mem_cons_self
  have hNumber := (decimalNumber_digits [] (by simp) hDigits hNe Stops.nil).1
  rw [List.nil_append, List.append_nil] at hNumber
  rw [parseTime, cString_digits hDigits]
  dsimp only
  rw [if_neg (hNot ',' (by decide)), if_pos hHead, if_neg (hNot 'T' (by decide)), deltaSeconds, hNumber]

/-- The age that the code computes is the right one only if the response is older than the time of day. -/
theorem age_iff {now rt a d date : Int} (delay : Int) (hClock : Clock now rt) (ha : 0 ≤ a)
    (hDate : (date = d ∧ 0 ≤ d) ∨ (date = 0 ∧ (d < 0 ∨ 1073741824 ≤ d))) :
    max (max 0 (int32 (rt - date))) (now + a) + delay = max (max 0 (rt - d)) a + delay ↔
      d + a ≤ rt - now ∧ (d + a = rt - now ∨ (0 ≤ d ∧ rt - d < 2147483648)) := by
  have hPos := hClock.pos
  have hLe := hClock.le
  have hSoon := hClock.soon
  simp only [int32]
  omega

theorem isValid_none (e : CacheEntry) (t : Int) (h : e.mustRevalidate = false) :
    isValid .none t e = true ↔
      e.freshnessLifetime > e.correctedInitialAge + (t - e.responseTime) := by
  simp [isValid, Directives.none, h]

/-! ## What a text that is no date is read as -/

theorem daysBeforeMonth_nonneg (year mon : Int) : 0 ≤ daysBeforeMonth year mon := by
  have hTable : ∀ x ∈ ([0, 31, 59, 90, 120, 151, 181, 212, 243, 273, 304, 334] : List Int), 0 ≤ x := by decide
  have hEntry : 0 ≤ ([0, 31, 59, 90, 120, 151, 181, 212, 243, 273, 304, 334].getD mon.toNat 0 : Int) := by
    rw [List.getD_eq_getElem?_getD]
    cases hGet : ([0, 31, 59, 90, 120, 151, 181, 212, 243, 273, 304, 334] : List Int)[mon.toNat]? with
    | none => exact le_refl 0
    | some x => exact hTable x (List.mem_of_getElem? hGet)
  rw [daysBeforeMonth]
  split <;> omega

theorem timeOf_nonneg (tm : Tm) : 0 ≤ timeOf tm := by
  have hMonth := daysBeforeMonth_nonneg (tm.year + 1900) tm.mon
  rw [timeOf]
  split
  · rename_i hLegal
    obtain ⟨hSec, hMin, hHour, hDay, _, hYear⟩ := hLegal
    rw [timegm, daysBeforeYear]
    omega
  · exact le_refl 0

theorem timeOf_no_day {tm : Tm} (h : tm.mday = 0) : timeOf tm = 0 := by
  rw [timeOf, if_neg]
  intro hLegal
  have hDay := hLegal.2.2.2.1
  omega

/-- Either the text is refused, or it is a date with this day. -/
def ReadAs (day : Int) (t : Int) : Prop := t = 0 ∨ ∃ tm : Tm, tm.mday = int32 day ∧ t = timeOf tm

theorem rfc850_read {s : Word} {t : Int} (h : rfc850 s = some t) : ReadAs (strtol s).1 t := by
  rw [rfc850] at h
  split at h
  · cases h
    exact .inl rfl
  · obtain ⟨_, _, h⟩ := Option.bind_eq_some_iff.mp h
    obtain ⟨_, _, h⟩ := Option.bind_eq_some_iff.mp h
    obtain ⟨_, _, h⟩ := Option.bind_eq_some_iff.mp h
    cases h
    exact .inr ⟨_, rfl, rfl⟩

theorem rfc1123_read {s : Word} {t : Int} (h : rfc1123 s = some t) : ReadAs (strtol s).1 t := by
  rw [rfc1123] at h
  split at h
  · cases h
    exact .inl rfl
  · obtain ⟨_, _, h⟩ := Option.bind_eq_some_iff.mp h
    obtain ⟨_, _, h⟩ := Option.bind_eq_some_iff.mp h
    cases h
    exact .inr ⟨_, rfl, rfl⟩

theorem isoTime_read {s : Word} {t : Int} (h : isoTime s = some t) : ∃ day, ReadAs day t := by
  rw [isoTime] at h
  split at h
  · cases h
    exact ⟨0, .inl rfl⟩
  · obtain ⟨_, _, h⟩ := Option.bind_eq_some_iff.mp h
    obtain ⟨_, _, h⟩ := Option.bind_eq_some_iff.mp h
    obtain ⟨_, _, h⟩ := Option.bind_eq_some_iff.mp h
    obtain ⟨_, _, h⟩ := Option.bind_eq_some_iff.mp h
    cases h
    exact ⟨_, .inr ⟨_, rfl, rfl⟩⟩

theorem ctimeFormat_read {s : Word} {t : Int} (h : ctimeFormat s = some t) :
    t = 0 ∨ ∃ mon rest, makeMonth (s.dropWhile (· = ' ')) = some (mon, rest) ∧ ReadAs (strtol rest).1 t := by
  rw [ctimeFormat] at h
  dsimp only at h
  split at h
  · cases h
    exact .inl rfl
  · obtain ⟨⟨mon, rest⟩, hMonth, h⟩ := Option.bind_eq_some_iff.mp h
    obtain ⟨_, _, h⟩ := Option.bind_eq_some_iff.mp h
    cases h
    exact .inr ⟨mon, rest, hMonth, .inr ⟨_, rfl, rfl⟩⟩

theorem ReadAs.nonneg {day t : Int} (h : ReadAs day t) : 0 ≤ t := by
  rcases h with rfl | ⟨tm, _, rfl⟩
  · exact le_refl 0
  · exact timeOf_nonneg tm

theorem parseTime_nonneg {value : Word} {t : Int} (hNow : 0 ≤ now) (h : parseTime now value = some t) :
    0 ≤ t := by
  rw [parseTime] at h
  dsimp only at h
  split at h
  · split at h
    · exact (rfc850_read h).nonneg
    · exact (rfc1123_read h).nonneg
  · split at h
    · split at h
      · obtain ⟨_, hRead⟩ := isoTime_read h
        exact hRead.nonneg
      · rw [deltaSeconds] at h
        split at h
        · cases h
          exact hNow
        · split at h
          · cases h
            omega
          · cases h
    · rcases ctimeFormat_read h with rfl | ⟨_, _, _, hRead⟩
      · exact le_refl 0
      · exact hRead.nonneg

/-- The text starts with a letter, after blanks. -/
def StartsWithLetter (s : Word) : Prop := (s.dropWhile (· = ' ')).head?.any isAlpha = true

/-- The directives start with letters, as those of the protocol do. -/
structure Directive (control : Word) : Prop where
  no_null : Char.ofNat 0 ∉ control
  rest : ∀ before after, control = before ++ ',' :: after → StartsWithLetter after

theorem ReadAs.no_day {t : Int} (h : ReadAs 0 t) : t = 0 := by
  rcases h with rfl | ⟨tm, hDay, rfl⟩
  · rfl
  · exact timeOf_no_day hDay

theorem isAlpha_facts {c : Char} (h : isAlpha c = true) :
    isSpace c = false ∧ isDigitOf 10 c = false ∧ c ≠ '-' ∧ c ≠ '+' := by
  have hCode : 65 ≤ c.toNat := by
    simp only [isAlpha, Bool.or_eq_true, Bool.and_eq_true, decide_eq_true_eq] at h
    rcases h with ⟨hLow, _⟩ | ⟨hLow, _⟩
    · have hLow' : 97 ≤ c.toNat := hLow
      omega
    · exact hLow
  have hNe : ∀ d : Char, d.toNat < 65 → c ≠ d := by
    rintro d hd rfl
    omega
  refine ⟨?_, ?_, hNe _ (by decide), hNe _ (by decide)⟩
  · simp only [isSpace, Bool.or_eq_false_iff, decide_eq_false_iff_not]
    refine ⟨⟨⟨⟨⟨hNe _ (by decide), hNe _ (by decide)⟩, hNe _ (by decide)⟩, hNe _ (by decide)⟩, ?_⟩, ?_⟩ <;> omega
  · rw [← Bool.not_eq_true]
    intro hDigit
    have hHigh : c.toNat ≤ 57 := ((isDigit_iff c).mp hDigit).2
    omega

/-- There is no number where a letter is, or a hyphen and a letter. -/
theorem strtol_letter {c : Char} (h : isAlpha c = true) (cs : Word) :
    strtol (c :: cs) = (0, c :: cs) ∧ strtol ('-' :: c :: cs) = (0, '-' :: c :: cs) := by
  obtain ⟨hSpace, hDigit, hMinus, hPlus⟩ := isAlpha_facts h
  have hTake : (c :: cs).takeWhile (isDigitOf 10) = [] := List.takeWhile_cons_of_neg (by simp [hDigit])
  have hSign : sign ((c :: cs).dropWhile isSpace) = (false, c :: cs) := by
    rw [List.dropWhile_cons_of_neg (by simp [hSpace]), sign]
    · rintro _ ⟨⟩
      exact hMinus rfl
    · rintro _ ⟨⟩
      exact hPlus rfl
  have hHyphen : sign (('-' :: c :: cs).dropWhile isSpace) = (true, c :: cs) := by
    rw [List.dropWhile_cons_of_neg (by decide)]
    rfl
  constructor
  · rw [strtol, decimalNumber, number, hSign]
    simp only [hTake, List.isEmpty_nil, if_true]
  · rw [strtol, decimalNumber, number, hHyphen]
    simp only [hTake, List.isEmpty_nil, if_true]

/-- Behind the first comma there is a letter, so no day is read there. -/
theorem after_comma {control : Word} (h : Directive control) (hComma : ',' ∈ control) :
    (strtol ((control.dropWhile (· ≠ ',')).tail.dropWhile (· = ' '))).1 = 0 := by
  have hSplit : ∃ after, control.dropWhile (· ≠ ',') = ',' :: after := by
    cases hDrop : control.dropWhile (· ≠ ',') with
    | nil =>
      have hAll := List.dropWhile_eq_nil_iff.mp hDrop ',' hComma
      simp at hAll
    | cons c after =>
      have hHead := List.head?_dropWhile_not (fun c => decide (c ≠ ',')) control
      rw [hDrop] at hHead
      exact ⟨after, by simpa using hHead⟩
  obtain ⟨after, hDrop⟩ := hSplit
  have hLetter := h.rest (control.takeWhile (· ≠ ',')) after (by
    rw [← hDrop, List.takeWhile_append_dropWhile])
  rw [hDrop, List.tail_cons]
  rw [StartsWithLetter] at hLetter
  cases hRest : after.dropWhile (· = ' ') with
  | nil =>
    rw [hRest] at hLetter
    cases hLetter
  | cons c cs =>
    rw [hRest] at hLetter
    rw [(strtol_letter hLetter cs).1]

theorem maxAge_alone {control m : Word} (hMaxAge : HasMaxAge control m) (hComma : ',' ∉ control) :
    ∃ blanks rest, control = blanks ++ ("max-age=".toList ++ rest) ∧ ∀ c ∈ blanks, c = ' ' := by
  obtain ⟨before, blanks, blanks', after, rfl, hBefore, _, hBlanks, _⟩ := hMaxAge
  rcases hBefore with rfl | ⟨b, rfl⟩
  · exact ⟨blanks, _, rfl, fun c hc => hBlanks c (List.mem_append_left _ hc)⟩
  · exact absurd (by simp) hComma

/-- The value of Cache-Control is not a date. -/
theorem control_no_time {control m : Word} {x : Int} (hMaxAge : HasMaxAge control m)
    (h : Directive control) (hRead : parseTime now control = some x) : x = 0 := by
  rw [parseTime, cString_of_no_null h.no_null] at hRead
  dsimp only at hRead
  split at hRead
  · rename_i hComma
    have hNone := after_comma h hComma
    split at hRead
    · have hDate := rfc850_read hRead
      rw [hNone] at hDate
      exact hDate.no_day
    · have hDate := rfc1123_read hRead
      rw [hNone] at hDate
      exact hDate.no_day
  · rename_i hComma
    obtain ⟨blanks, rest, rfl, hBlanks⟩ := maxAge_alone hMaxAge hComma
    have hHead : (blanks ++ ("max-age=".toList ++ rest)).head?.any isDigit = false := by
      cases blanks with
      | nil => rfl
      | cons c cs =>
        rw [hBlanks c List.mem_cons_self]
        rfl
    rw [if_neg (by rw [hHead]; decide)] at hRead
    rcases ctimeFormat_read hRead with rfl | ⟨mon, rest', hMonth, hDate⟩
    · rfl
    · rw [List.dropWhile_append_of_pos fun c hc => decide_eq_true (hBlanks c hc)] at hMonth
      have hRest : rest' = '-' :: 'a' :: ("ge=".toList ++ rest) := by
        cases hMonth
        rfl
      rw [hRest, (strtol_letter (by decide) _).2] at hDate
      exact hDate.no_day

/-! ## The entry -/

theorem response_fields {headers : List Word} {date : HttpDate} {age control : Word} {e e₁ : CacheEntry}
    (hResponse : Response headers date age control)
    (h : parseHeaders now maxEntrySize e headers = some e₁) :
    e₁.date = timeOf date.tm ∧ e₁.age = now + valueOf 10 age ∧ parseTime now control = some e₁.maxAge := by
  have hDate := parseHeaders_field CacheEntry.date (fun _ _ _ hRead => hRead.date)
    hResponse.date_eq (.inl hResponse.dated) h
  have hAge := parseHeaders_field CacheEntry.age (fun _ _ _ hRead => hRead.age)
    hResponse.age_eq (.inl hResponse.aged) h
  have hControl := parseHeaders_field CacheEntry.maxAge (fun _ _ _ hRead => hRead.maxAge)
    hResponse.control_eq (.inl hResponse.controlled) h
  rw [date.parseTime_text] at hDate
  rw [parseTime_digits hResponse.age_digits hResponse.age_ne_nil] at hAge
  split at hAge
  · exact ⟨(Option.some.inj hDate).symm, (Option.some.inj hAge).symm, hControl⟩
  · cases hAge

/-- The date as it is read: itself, or 0 when its year is refused. -/
theorem date_read (d : HttpDate) :
    (timeOf d.tm = d.time ∧ 0 ≤ d.time) ∨ (timeOf d.tm = 0 ∧ (d.time < 0 ∨ 1073741824 ≤ d.time)) := by
  obtain ⟨hEpoch, hLate, hEarly⟩ := d.time_bounds
  rw [d.timeOf_tm]
  split
  · rename_i hYear
    exact .inl ⟨rfl, hEpoch hYear.1⟩
  · rename_i hYear
    right
    refine ⟨rfl, ?_⟩
    by_cases hOld : d.year < 1970
    · exact .inl (hEarly hOld)
    · exact .inr (hLate (by omega))

theorem rfc2616_iff {date : HttpDate} {a rt x : Int} (m requestTime defaultExpiration : Int) {e : CacheEntry}
    (hClock : Clock now rt) (ha : 0 ≤ a) (hDate : e.date = timeOf date.tm) (hAge : e.age = now + a)
    (hMaxAge : e.maxAge = x) (hx : 0 ≤ x) :
    Rfc2616 (calculateTime rt e defaultExpiration requestTime) m a date.time rt requestTime ↔
      max 0 (int32 x) = m ∧ date.time + a ≤ rt - now ∧
        (date.time + a = rt - now ∨ (0 ≤ date.time ∧ rt - date.time < 2147483648)) := by
  have hFreshness : freshnessOf e defaultExpiration = x := by
    rw [freshnessOf, hMaxAge, if_neg (by omega)]
  have hIff := age_iff (rt - requestTime) hClock ha (date_read date)
  rw [← hDate, ← hAge] at hIff
  rw [← hIff]
  constructor
  · intro h
    exact ⟨hFreshness ▸ h.freshness, h.age⟩
  · rintro ⟨hFresh, hInitial⟩
    have hLifetime : (calculateTime rt e defaultExpiration requestTime).freshnessLifetime = m := by
      rw [calculateTime, hFreshness]
      exact hFresh
    refine ⟨hLifetime, hInitial, ?_⟩
    intro t hNotForced
    rw [isValid_none _ t hNotForced, hLifetime]
    have hAgeField : (calculateTime rt e defaultExpiration requestTime).correctedInitialAge = _ := hInitial
    rw [hAgeField]
    rfl

/-- The headers give an entry that is as the protocol says. -/
def RightEntry (now : Int) (maxEntrySize : Nat) (e : CacheEntry) (headers : List Word) (m a d rt : Int)
    (defaultExpiration requestTime : Int) : Prop :=
  ∃ e₁, parseHeaders now maxEntrySize e headers = some e₁ ∧
    Rfc2616 (calculateTime rt e₁ defaultExpiration requestTime) m a d rt requestTime

/-- Date and age are together not more than the time between the two readings of the clock. -/
def AgeLost (now rt a d : Int) : Prop :=
  d + a ≤ rt - now ∧ (d + a = rt - now ∨ (0 ≤ d ∧ rt - d < 2147483648))

/-- When the entry is as the protocol says: for any value of Cache-Control, and for one whose directives
start with letters. -/
theorem freshness_iff {headers : List Word} {date : HttpDate} {age control m : Word} {rt requestTime : Int}
    {defaultExpiration : Int} {e : CacheEntry} (hClock : Clock now rt)
    (hResponse : Response headers date age control) (hMaxAge : HasMaxAge control m) :
    (RightEntry now maxEntrySize e headers (valueOf 10 m) (valueOf 10 age) date.time rt defaultExpiration
        requestTime ↔
      (∀ line ∈ headers, Readable now line) ∧
      (∃ x, parseTime now control = some x ∧ max 0 (int32 x) = valueOf 10 m) ∧
      AgeLost now rt (valueOf 10 age) date.time) ∧
    (Directive control →
      (RightEntry now maxEntrySize e headers (valueOf 10 m) (valueOf 10 age) date.time rt defaultExpiration
        requestTime ↔
      (∀ line ∈ headers, Readable now line) ∧ valueOf 10 m = 0 ∧
      AgeLost now rt (valueOf 10 age) date.time)) := by
  have hPos := hClock.pos
  have ha : (0 : Int) ≤ valueOf 10 age := Int.natCast_nonneg _
  have hRfc : ∀ e₁, parseHeaders now maxEntrySize e headers = some e₁ → _ := fun e₁ hParse =>
    have hFields := response_fields hResponse hParse
    rfc2616_iff (valueOf 10 m) requestTime defaultExpiration hClock ha hFields.1 hFields.2.1 rfl
      (parseTime_nonneg (by omega) hFields.2.2)
  have hGeneral : RightEntry now maxEntrySize e headers (valueOf 10 m) (valueOf 10 age) date.time rt
      defaultExpiration requestTime ↔
      (∀ line ∈ headers, Readable now line) ∧
      (∃ x, parseTime now control = some x ∧ max 0 (int32 x) = valueOf 10 m) ∧
      AgeLost now rt (valueOf 10 age) date.time := by
    rw [← parseHeaders_isSome maxEntrySize e]
    constructor
    · rintro ⟨e₁, hParse, hRight⟩
      obtain ⟨hFresh, hAges⟩ := (hRfc e₁ hParse).mp hRight
      exact ⟨⟨e₁, hParse⟩, ⟨e₁.maxAge, (response_fields hResponse hParse).2.2, hFresh⟩, hAges⟩
    · rintro ⟨⟨e₁, hParse⟩, ⟨x, hControl, hFresh⟩, hAges⟩
      refine ⟨e₁, hParse, (hRfc e₁ hParse).mpr ⟨?_, hAges⟩⟩
      have hRead := (response_fields hResponse hParse).2.2
      rw [hControl] at hRead
      cases hRead
      exact hFresh
  refine ⟨hGeneral, fun hDirective => hGeneral.trans ?_⟩
  apply and_congr_right
  intro hReadable
  apply and_congr_left
  intro _
  constructor
  · rintro ⟨x, hRead, hEq⟩
    rw [control_no_time hMaxAge hDirective hRead] at hEq
    have hZero : max 0 (int32 0) = 0 := by decide
    omega
  · intro hZero
    obtain ⟨line, hLine, hSets⟩ := hResponse.controlled
    obtain ⟨x, hRead⟩ := hReadable line hLine (readsTime_of_setsMaxAge hSets)
    rw [hResponse.control_eq line hLine hSets] at hRead
    have hNone := control_no_time hMaxAge hDirective hRead
    rw [hNone] at hRead
    refine ⟨0, hRead, ?_⟩
    rw [hZero]
    decide

/-- The first second of 1970, a Thursday. -/
def epoch : HttpDate :=
  ⟨4, 1, 0, 1970, 0, 0, 0, by decide, by decide, by decide, by decide, by decide, by decide⟩

def epochHeaders : List Word :=
  ["Date: Thu, 01 Jan 1970 00:00:00 GMT".toList, "Age: 0".toList, "Cache-Control: max-age=0".toList]

/-- Only such a response is right: from 1970, of age 0 and fresh for no time. -/
theorem epoch_response_right :
    RightEntry 1000 100 (.new "http://h/".toList) epochHeaders (valueOf 10 ['0']) (valueOf 10 ['0'])
      epoch.time 1000 86400 990 := by
  have hDigit : ∀ c ∈ ['0'], isDigit c = true := by simp [isDigit, isDigitOf, digitOf]
  have hResponse : Response epochHeaders epoch ['0'] "max-age=0".toList :=
    ⟨by decide, by decide, by decide, by decide, by decide, by decide, by simp, hDigit⟩
  have hMaxAge : HasMaxAge "max-age=0".toList ['0'] :=
    ⟨[], [], [], [], rfl, .inl rfl, .inl rfl, by simp, by simp, hDigit⟩
  have hReadable : ∀ line ∈ epochHeaders, Readable 1000 line := by
    simp only [epochHeaders, List.forall_mem_cons]
    exact ⟨fun _ => ⟨0, by decide⟩, fun _ => ⟨1000, by decide⟩, fun _ => ⟨0, by decide⟩, by simp⟩
  exact (freshness_iff ⟨by decide, by decide, by decide, by decide⟩ hResponse hMaxAge).1.mpr
    ⟨hReadable, ⟨0, by decide, by decide⟩, by decide, .inl (by decide)⟩

/-- A response of 1994 that is to be fresh for five minutes gets no lifetime at all, and its age is
counted from 1970. -/
theorem five_minutes_lost :
    ∃ e₁, parseHeaders 784111780 100 (.new "http://h/".toList)
        ["Date: Sun, 06 Nov 1994 08:49:37 GMT".toList, "Age: 0".toList,
          "Cache-Control: max-age=300".toList] = some e₁ ∧
      (calculateTime 784111780 e₁ 86400 784111779).freshnessLifetime = 0 ∧
      (calculateTime 784111780 e₁ 86400 784111779).correctedInitialAge = 784111781 ∧
      ¬ Rfc2616 (calculateTime 784111780 e₁ 86400 784111779) 300 0 784111777 784111780 784111779 := by
  have hRun : (parseHeaders 784111780 100 (.new "http://h/".toList)
      ["Date: Sun, 06 Nov 1994 08:49:37 GMT".toList, "Age: 0".toList,
        "Cache-Control: max-age=300".toList]).map (fun e =>
      ((calculateTime 784111780 e 86400 784111779).freshnessLifetime,
        (calculateTime 784111780 e 86400 784111779).correctedInitialAge)) = some (0, 784111781) := by
    decide
  obtain ⟨e₁, hParse, hFields⟩ := Option.map_eq_some_iff.mp hRun
  obtain ⟨hFresh, hAge⟩ := Prod.mk.inj hFields
  refine ⟨e₁, hParse, hFresh, hAge, ?_⟩
  intro hRight
  have hLifetime := hRight.freshness
  rw [hFresh] at hLifetime
  exact absurd hLifetime (by decide)

end Libdap.Http
