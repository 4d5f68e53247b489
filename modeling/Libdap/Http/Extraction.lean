import Libdap.Http.Decimal
import Libdap.Http.CacheEntry

/-! # Fields read from a stream -/

namespace Libdap.Http
open Core Constraint
set_option autoImplicit false

/-- The text ends here, or with a blank. -/
def Ends (rest : Word) : Prop := ∀ c cs, rest = c :: cs → isSpace c = true

theorem Ends.nil : Ends [] := nofun

theorem Ends.cons {c : Char} (h : isSpace c = true) (cs : Word) : Ends (c :: cs) := by
  rintro _ _ ⟨⟩
  exact h

theorem Ends.blank (cs : Word) : Ends (' ' :: cs) := Ends.cons rfl cs

theorem Ends.lineBreak : Ends "\r\n".toList := Ends.cons rfl _

theorem Ends.stops {rest : Word} (h : Ends rest) : Stops rest := by
  intro c cs hRest
  have hSpace := h c cs hRest
  cases hDigit : isDigit c with
  | false => rfl
  | true =>
    rw [digit_not_space hDigit] at hSpace
    cases hSpace

theorem Ends.takeWhile {rest : Word} (h : Ends rest) : rest.takeWhile notSpace = [] := by
  cases rest with
  | nil => rfl
  | cons c cs => exact List.takeWhile_cons_of_neg (by simp [notSpace, h c cs rfl])

theorem Ends.dropWhile {rest : Word} (h : Ends rest) : rest.dropWhile notSpace = rest := by
  cases rest with
  | nil => rfl
  | cons c cs => exact List.dropWhile_cons_of_neg (by simp [notSpace, h c cs rfl])

def IsWord (w : Word) : Prop := w ≠ [] ∧ ∀ c ∈ w, isSpace c = false

theorem IsWord.not_blank {w : Word} (h : IsWord w) (rest : Word) :
    (w ++ rest).dropWhile isSpace = w ++ rest := by
  cases w with
  | nil => exact absurd rfl h.1
  | cons c cs => exact List.dropWhile_cons_of_neg (by simp [h.2 c List.mem_cons_self])

theorem IsWord.notSpace {w : Word} (h : IsWord w) : ∀ c ∈ w, notSpace c = true := by
  intro c hc
  rw [Http.notSpace, h.2 c hc]
  rfl

/-! ## Fields that were printed -/

theorem extractWord_word {w rest : Word} (spaces : Word) (hSpaces : ∀ c ∈ spaces, isSpace c = true)
    (hWord : IsWord w) (hEnds : Ends rest) : extractWord (some (spaces ++ (w ++ rest))) = (w, some rest) := by
  have hDrop : (spaces ++ (w ++ rest)).dropWhile isSpace = w ++ rest := by
    rw [List.dropWhile_append_of_pos hSpaces, hWord.not_blank]
  have hTake : (w ++ rest).takeWhile notSpace = w := by
    rw [List.takeWhile_append_of_pos hWord.notSpace, hEnds.takeWhile, List.append_nil]
  have hRest : (w ++ rest).dropWhile notSpace = rest := by
    rw [List.dropWhile_append_of_pos hWord.notSpace, hEnds.dropWhile]
  rw [extractWord, Option.map_some, hDrop]
  cases w with
  | nil => exact absurd rfl hWord.1
  | cons c cs => exact Prod.ext hTake (congrArg some hRest)

theorem not_blank_of_number {text rest : Word} {negative : Bool} {v : Nat}
    (h : decimalNumber text = some (negative, v, rest)) : (text.dropWhile isSpace).isEmpty = false := by
  cases hText : text.dropWhile isSpace with
  | nil =>
    rw [decimalNumber, number, hText] at h
    cases h
  | cons c cs => rfl

theorem decimalNumber_integer (n : Int) {rest : Word} (h : Ends rest) :
    decimalNumber (' ' :: (integer n ++ rest)) = some (decide (n < 0), n.natAbs, rest) := by
  have hSpaces : ∀ c ∈ [' '], isSpace c = true := by simp [isSpace]
  cases n with
  | ofNat n =>
    have hRead := (decimalNumber_digits [' '] hSpaces (digits_of_decimal n) (decimal_ne_nil n) h.stops).1
    rw [valueOf_decimal] at hRead
    rw [integer]
    exact hRead.trans (by simp)
  | negSucc n =>
    have hRead := (decimalNumber_digits [' '] hSpaces (digits_of_decimal (n + 1)) (decimal_ne_nil (n + 1)) h.stops).2
    rw [valueOf_decimal] at hRead
    rw [integer]
    exact hRead.trans (by simp [Int.negSucc_lt_zero])

theorem signed_natAbs (n : Int) : (if decide (n < 0) = true then -(n.natAbs : Int) else n.natAbs) = n := by
  simp only [decide_eq_true_eq]
  split <;> omega

theorem extractInt_integer {low high old n : Int} {rest : Word} (hLow : low ≤ n) (hHigh : n ≤ high)
    (h : Ends rest) : extractInt low high old (some (' ' :: (integer n ++ rest))) = (n, some rest) := by
  have hRead := decimalNumber_integer n h
  rw [extractInt]
  simp only [not_blank_of_number hRead, hRead, Bool.false_eq_true, if_false, signed_natAbs]
  rw [if_neg (by omega), if_neg (by omega)]

theorem extractUnsigned_asLong (old : Nat) {size : Nat} {rest : Word} (hSize : size ≤ ULONG_MAX)
    (h : Ends rest) :
    extractUnsigned old (some (' ' :: (integer (asLong size) ++ rest))) = (size, some rest) := by
  have hRead := decimalNumber_integer (asLong size) h
  rw [extractUnsigned]
  simp only [not_blank_of_number hRead, hRead, Bool.false_eq_true, if_false]
  rw [ULONG_MAX] at hSize
  have hValue : ¬ ULONG_MAX < (asLong size).natAbs := by
    rw [ULONG_MAX, asLong]
    omega
  have hBack : (if decide (asLong size < 0) = true then (ULONG_MAX + 1 - (asLong size).natAbs) % (ULONG_MAX + 1)
      else (asLong size).natAbs) = size := by
    rcases lt_or_ge (asLong size) 0 with hNegative | hNot
    · rw [decide_eq_true hNegative, if_pos rfl, ULONG_MAX]
      rw [asLong] at hNegative ⊢
      omega
    · rw [decide_eq_false (Int.not_lt.mpr hNot), if_neg Bool.false_ne_true]
      rw [asLong] at hNot ⊢
      omega
  rw [if_neg hValue, hBack]

theorem extractBool_flag (old b : Bool) {rest : Word} (h : Ends rest) :
    extractBool old (some (' ' :: (flag b ++ rest))) = (b, some rest) := by
  have hPrint : flag b = integer b.toNat := by
    cases b <;> decide
  have hRead := decimalNumber_integer b.toNat h
  rw [hPrint, extractBool]
  simp only [not_blank_of_number hRead, hRead, Bool.false_eq_true, if_false]
  cases b <;> rfl

/-! ## Texts with too few fields -/

/-- A part of a printed number. -/
def NumberPart (w : Word) : Prop := ∃ ds : Word, (∀ c ∈ ds, isDigit c = true) ∧ (w = ds ∨ w = '-' :: ds)

/-- A text of so many parts of numbers, or fewer. -/
inductive Numbers : Nat → Word → Prop
  | nil (k : Nat) : Numbers k []
  | space {k : Nat} {c : Char} {cs : Word} (h : isSpace c = true) (hRest : Numbers k cs) : Numbers k (c :: cs)
  | part {k : Nat} {w rest : Word} (hPart : NumberPart w) (hNe : w ≠ []) (hEnds : Ends rest)
    (hRest : Numbers k rest) : Numbers (k + 1) (w ++ rest)

theorem NumberPart.left {a b : Word} (h : NumberPart (a ++ b)) : NumberPart a := by
  obtain ⟨ds, hDigits, hEq | hEq⟩ := h
  · refine ⟨a, fun c hc => hDigits c ?_, Or.inl rfl⟩
    rw [← hEq]
    exact List.mem_append_left b hc
  · cases a with
    | nil => exact ⟨[], nofun, Or.inl rfl⟩
    | cons c cs =>
      rw [List.cons_append] at hEq
      obtain ⟨rfl, hTail⟩ := List.cons_eq_cons.mp hEq
      refine ⟨cs, fun c hc => hDigits c ?_, Or.inr rfl⟩
      rw [← hTail]
      exact List.mem_append_left b hc

theorem NumberPart.right {a b : Word} (h : NumberPart (a ++ b)) : NumberPart b := by
  obtain ⟨ds, hDigits, hEq | hEq⟩ := h
  · refine ⟨b, fun c hc => hDigits c ?_, Or.inl rfl⟩
    rw [← hEq]
    exact List.mem_append_right a hc
  · cases a with
    | nil => exact ⟨ds, hDigits, Or.inr hEq⟩
    | cons c cs =>
      rw [List.cons_append] at hEq
      obtain ⟨rfl, hTail⟩ := List.cons_eq_cons.mp hEq
      refine ⟨b, fun c hc => hDigits c ?_, Or.inl rfl⟩
      rw [← hTail]
      exact List.mem_append_right cs hc

theorem Numbers.more {k : Nat} {text : Word} (h : Numbers k text) : Numbers (k + 1) text := by
  induction h with
  | nil k => exact .nil (k + 1)
  | space hSpace _ ih => exact .space hSpace ih
  | part hPart hNe hEnds _ ih => exact .part hPart hNe hEnds ih

theorem Numbers.drop_blank {k : Nat} {c : Char} {cs : Word} (hSpace : isSpace c = true)
    (h : Numbers k (c :: cs)) : Numbers k cs := by
  generalize hText : c :: cs = text at h
  cases h with
  | nil => cases hText
  | space _ hRest =>
    cases hText
    exact hRest
  | @part _ w rest hPart hNe _ _ =>
    cases w with
    | nil => exact absurd rfl hNe
    | cons d w =>
      cases hText
      obtain ⟨ds, hDigits, rfl | hMinus⟩ := hPart
      · rw [digit_not_space (hDigits c List.mem_cons_self)] at hSpace
        cases hSpace
      · cases hMinus
        cases hSpace

theorem Numbers.left {k : Nat} {a b : Word} (h : Numbers k (a ++ b)) : Numbers k a := by
  generalize hText : a ++ b = text at h
  induction h generalizing a with
  | nil k =>
    obtain ⟨rfl, -⟩ := List.append_eq_nil_iff.mp hText
    exact .nil k
  | space hSpace _ ih =>
    cases a with
    | nil => exact .nil _
    | cons c cs =>
      rw [List.cons_append] at hText
      obtain ⟨rfl, hTail⟩ := List.cons_eq_cons.mp hText
      exact .space hSpace (ih hTail)
  | @part k w rest hPart hNe hEnds hRest ih =>
    rcases List.append_eq_append_iff.mp hText with ⟨more, rfl, -⟩ | ⟨more, rfl, hTail⟩
    · cases a with
      | nil => exact .nil _
      | cons c cs =>
        rw [← List.append_nil (c :: cs)]
        exact .part hPart.left (List.cons_ne_nil c cs) Ends.nil (.nil k)
    · refine .part hPart hNe ?_ (ih hTail.symm)
      intro c cs hMore
      exact hEnds c (cs ++ b) (by rw [hTail, hMore, List.cons_append])

theorem Numbers.right {k : Nat} {a b : Word} (h : Numbers k (a ++ b)) : Numbers k b := by
  generalize hText : a ++ b = text at h
  induction h generalizing a with
  | nil k =>
    obtain ⟨-, rfl⟩ := List.append_eq_nil_iff.mp hText
    exact .nil k
  | @space k c cs hSpace hRest ih =>
    cases a with
    | nil =>
      rw [List.nil_append] at hText
      rw [hText]
      exact .space hSpace hRest
    | cons d ds =>
      rw [List.cons_append] at hText
      exact ih (List.cons_eq_cons.mp hText).2
  | @part k w rest hPart hNe hEnds hRest ih =>
    rcases List.append_eq_append_iff.mp hText with ⟨more, rfl, rfl⟩ | ⟨more, rfl, hTail⟩
    · cases more with
      | nil => exact hRest.more
      | cons c cs => exact .part hPart.right (List.cons_ne_nil c cs) hEnds hRest
    · exact (ih hTail.symm).more

theorem Numbers.blank {text : Word} (h : Numbers 0 text) : text.dropWhile isSpace = [] := by
  generalize hZero : 0 = k at h
  induction h with
  | nil k => rfl
  | space hSpace _ ih =>
    rw [List.dropWhile_cons_of_pos hSpace]
    exact ih hZero
  | part hPart hNe hEnds hRest ih => cases hZero

/-- Reading a number takes one part. -/
theorem Numbers.after_number {k : Nat} {text rest : Word} {negative : Bool} {v : Nat} (h : Numbers k text)
    (hRead : decimalNumber text = some (negative, v, rest)) : Numbers (k - 1) rest := by
  induction h with
  | nil k => cases hRead
  | @space k c cs hSpace _ ih =>
    apply ih
    rw [← hRead, decimalNumber, decimalNumber, number, number, List.dropWhile_cons_of_pos hSpace]
  | @part k w rest' hPart hNe hEnds hRest _ =>
    obtain ⟨ds, hDigits, hWord⟩ := hPart
    rcases List.eq_nil_or_concat ds with rfl | hSome
    · rcases hWord with rfl | rfl
      · exact absurd rfl hNe
      · rw [decimalNumber, number] at hRead
        simp only [List.cons_append, List.nil_append] at hRead
        rw [List.dropWhile_cons_of_neg (by decide), sign] at hRead
        simp only [hEnds.stops.takeWhile, List.isEmpty_nil, if_true] at hRead
        cases hRead
    · have hDs : ds ≠ [] := by
        obtain ⟨ds', c, rfl⟩ := hSome
        simp
      have hParts := decimalNumber_digits [] (by simp) hDigits hDs hEnds.stops
      have hSame : rest' = rest := by
        rcases hWord with rfl | rfl
        · have hBoth := hParts.1.symm.trans hRead
          simp only [Option.some.injEq, Prod.mk.injEq] at hBoth
          exact hBoth.2.2
        · have hBoth := hParts.2.symm.trans hRead
          simp only [Option.some.injEq, Prod.mk.injEq] at hBoth
          exact hBoth.2.2
      rw [← hSame]
      exact hRest

/-- What is left behind the first word. -/
def behindWord (text : Word) : Word := (text.dropWhile isSpace).dropWhile notSpace

theorem Numbers.behindWord {k : Nat} {text : Word} (h : Numbers k text) : Numbers (k - 1) (behindWord text) := by
  induction h with
  | nil k => exact .nil (k - 1)
  | @space k c cs hSpace _ ih =>
    rw [Http.behindWord, List.dropWhile_cons_of_pos hSpace]
    exact ih
  | @part k w rest hPart hNe hEnds hRest _ =>
    have hWord : IsWord w := by
      refine ⟨hNe, ?_⟩
      obtain ⟨ds, hDigits, rfl | rfl⟩ := hPart
      · exact fun c hc => digit_not_space (hDigits c hc)
      · intro c hc
        rcases List.mem_cons.mp hc with rfl | hDigit
        · decide
        · exact digit_not_space (hDigits c hDigit)
    rw [Http.behindWord, hWord.not_blank, List.dropWhile_append_of_pos hWord.notSpace, hEnds.dropWhile]
    exact hRest

/-- The stream has failed, or so many numbers are left in it at most. -/
def Few (k : Nat) (s : Extraction) : Prop := ∀ text, s = some text → Numbers k text

theorem Few.none (k : Nat) : Few k none := nofun

theorem Few.extractWord {k : Nat} {s : Extraction} (h : Few k s) : Few (k - 1) (extractWord s).2 := by
  cases s with
  | none => exact Few.none (k - 1)
  | some text =>
    have hBehind := (h text rfl).behindWord
    rw [behindWord] at hBehind
    rw [Http.extractWord, Option.map_some]
    cases hText : text.dropWhile isSpace with
    | nil => exact Few.none (k - 1)
    | cons c cs =>
      rw [hText] at hBehind
      rintro _ ⟨⟩
      exact hBehind

theorem Few.extractInt {k : Nat} {s : Extraction} (h : Few k s) (low high old : Int) :
    Few (k - 1) (extractInt low high old s).2 := by
  cases s with
  | none => exact Few.none (k - 1)
  | some text =>
    simp only [Http.extractInt]
    split
    · exact Few.none (k - 1)
    · split
      · exact Few.none (k - 1)
      · rename_i negative v rest hRead
        generalize (if negative = true then -(v : Int) else v) = n
        split
        · exact Few.none (k - 1)
        · split
          · exact Few.none (k - 1)
          · rintro _ ⟨⟩
            exact (h text rfl).after_number hRead

theorem Few.extractUnsigned {k : Nat} {s : Extraction} (h : Few k s) (old : Nat) :
    Few (k - 1) (extractUnsigned old s).2 := by
  cases s with
  | none => exact Few.none (k - 1)
  | some text =>
    simp only [Http.extractUnsigned]
    split
    · exact Few.none (k - 1)
    · split
      · exact Few.none (k - 1)
      · rename_i negative v rest hRead
        split
        · exact Few.none (k - 1)
        · rintro _ ⟨⟩
          exact (h text rfl).after_number hRead

theorem Few.extractBool {k : Nat} {s : Extraction} (h : Few k s) (old : Bool) :
    Few (k - 1) (extractBool old s).2 := by
  cases s with
  | none => exact Few.none (k - 1)
  | some text =>
    simp only [Http.extractBool]
    split
    · exact Few.none (k - 1)
    · split
      · exact Few.none (k - 1)
      · rename_i negative v rest hRead
        have hRest := (h text rfl).after_number hRead
        split
        · rintro _ ⟨⟩
          exact hRest
        · split
          · rintro _ ⟨⟩
            exact hRest
          · exact Few.none (k - 1)

/-- With nothing left, a field stays as it was. -/
theorem Few.unread {s : Extraction} (h : Few 0 s) (low high old : Int) : (Http.extractInt low high old s).1 = old := by
  cases s with
  | none => rfl
  | some text => simp only [Http.extractInt, (h text rfl).blank, List.isEmpty_nil, if_true]

end Libdap.Http
