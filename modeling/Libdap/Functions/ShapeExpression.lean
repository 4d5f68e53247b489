import Libdap.Bes.BESKeys
import Libdap.Core.Fault
import Libdap.Http.Decimal

/-! # Shape expressions

The sizes of an array are written in brackets, one after the other. `parse_dims` reads them with the extraction operators
of a string stream.
-/

namespace Libdap.Functions
open Core Constraint Http
set_option autoImplicit false

/-- `>>` into a `char`, which is left as it was if there is none. -/
def readChar (old : Char) (iss : Bes.IStream) : Char × Bes.IStream :=
  if iss.eof || iss.fail then (old, { iss with fail := true })
  else
    match iss.rest.dropWhile isSpace with
    | [] => (old, ⟨[], true, true⟩)
    | c :: rest => (c, ⟨rest, false, false⟩)

/-- `>>` into an `int`; what does not fit fails. -/
def readInt (iss : Bes.IStream) : Int × Bes.IStream :=
  if iss.eof || iss.fail then (0, { iss with fail := true })
  else
    match decimalNumber iss.rest with
    | none => (0, { iss with fail := true })
    | some (negative, v, rest) =>
      let n : Int := if negative then -v else v
      if n < -2147483648 then (-2147483648, ⟨rest, rest.isEmpty, true⟩)
      else if INT_MAX < n then (INT_MAX, ⟨rest, rest.isEmpty, true⟩)
      else (n, ⟨rest, rest.isEmpty, false⟩)

def expected (what : String) (pos : Nat) (shape : Word) : Fault :=
  .Error (String.ofList ("make_array(): Expected ".toList ++ what.toList ++ " at position ".toList ++ decimal pos ++
    " in shape expression: ".toList ++ shape))

/-- Each round but the last takes two brackets. -/
def parseLoop (shape : Word) : Nat → Bes.IStream → Nat → List Int → Except Fault (List Int)
  | 0, _, _, _ => .error .undefined
  | n + 1, iss, pos, dims =>
    let left := readChar '\x00' iss
    if left.2.eof then .ok dims
    else if left.1 ≠ '[' ∨ left.2.fail then .error (expected "a left brace" (pos + 1) shape)
    else
      let size := readInt left.2
      if size.1 = 0 ∨ size.2.fail then .error (expected "an integer" (pos + 2) shape)
      else
        let right := readChar left.1 size.2
        if right.1 ≠ ']' ∨ right.2.fail then .error (expected "a right brace" (pos + 3) shape)
        else if right.2.eof then .ok (dims ++ [size.1])
        else parseLoop shape n right.2 (pos + 3) (dims ++ [size.1])

def parseDims (shape : Word) : Except Fault (List Int) := parseLoop shape (shape.length + 1) (.of shape) 0 []

/-! ## What a shape is -/

def Blank (text : Word) : Prop := ∀ c ∈ text, isSpace c = true

/-- A number as it is written, with or without a sign. -/
inductive Numeral : Word → Int → Prop
  | plain {ds : Word} (hDigits : ∀ c ∈ ds, isDigit c = true) (hNe : ds ≠ []) : Numeral ds (valueOf 10 ds)
  | plus {ds : Word} (hDigits : ∀ c ∈ ds, isDigit c = true) (hNe : ds ≠ []) : Numeral ('+' :: ds) (valueOf 10 ds)
  | minus {ds : Word} (hDigits : ∀ c ∈ ds, isDigit c = true) (hNe : ds ≠ []) : Numeral ('-' :: ds) (-(valueOf 10 ds))

/-- The text of the sizes, with blanks where they may stand. -/
inductive Written : Word → List Int → Prop
  | nil {blanks : Word} (h : Blank blanks) : Written blanks []
  | cons {b₁ b₂ b₃ numeral rest : Word} {size : Int} {sizes : List Int} (h₁ : Blank b₁) (h₂ : Blank b₂) (h₃ : Blank b₃)
    (hSize : Numeral numeral size) (hRest : Written rest sizes) :
    Written (b₁ ++ '[' :: (b₂ ++ (numeral ++ (b₃ ++ ']' :: rest)))) (size :: sizes)

/-! ## One round -/

section
variable {s rest shape b numeral : Word} {c old : Char} {size : Int} {n pos : Nat} {dims : List Int}

theorem dropWhile_blank (h : Blank b) (s : Word) : (b ++ s).dropWhile isSpace = s.dropWhile isSpace :=
  List.dropWhile_append_of_pos h

theorem readChar_blank (h : Blank b) : readChar old (.of b) = (old, ⟨[], true, true⟩) := by
  have hNone : b.dropWhile isSpace = [] := List.dropWhile_eq_nil_iff.mpr h
  rw [readChar, Bes.IStream.of]
  simp only [hNone]
  rfl

theorem readChar_some (h : Blank b) (hc : isSpace c = false) :
    readChar old (.of (b ++ c :: rest)) = (c, .of rest) := by
  have hSome : (b ++ c :: rest).dropWhile isSpace = c :: rest := by
    rw [dropWhile_blank h, List.dropWhile_cons_of_neg (by simp [hc])]
  rw [readChar, Bes.IStream.of]
  simp only [hSome]
  rfl

/-- A stream in which nothing went wrong is at its end, or in front of a character behind blanks. -/
theorem readChar_cases (old : Char) (s : Word) : (Blank s ∧ readChar old (.of s) = (old, ⟨[], true, true⟩)) ∨
    ∃ b c rest, s = b ++ c :: rest ∧ Blank b ∧ isSpace c = false ∧ readChar old (.of s) = (c, .of rest) := by
  have hBlank : Blank (s.takeWhile isSpace) := fun c hc => List.mem_takeWhile_imp hc
  have hSplit : s.takeWhile isSpace ++ s.dropWhile isSpace = s := List.takeWhile_append_dropWhile
  cases hDrop : s.dropWhile isSpace with
  | nil =>
    rw [hDrop, List.append_nil] at hSplit
    rw [hSplit] at hBlank
    exact .inl ⟨hBlank, readChar_blank hBlank⟩
  | cons c rest =>
    have hc : isSpace c = false := by
      have hHead := List.head?_dropWhile_not isSpace s
      rw [hDrop] at hHead
      simpa using hHead
    rw [hDrop] at hSplit
    refine .inr ⟨_, c, rest, hSplit.symm, hBlank, hc, ?_⟩
    rw [← hSplit]
    exact readChar_some hBlank hc

theorem decimalNumber_plus (hBlank : Blank b) {ds : Word} (hDigits : ∀ c ∈ ds, isDigit c = true) (hNe : ds ≠ [])
    (hRest : Stops rest) : decimalNumber (b ++ '+' :: (ds ++ rest)) = some (false, valueOf 10 ds, rest) := by
  have hAll : ∀ c ∈ ds, isDigitOf 10 c = true := hDigits
  have hTake : (ds ++ rest).takeWhile (isDigitOf 10) = ds := by
    rw [List.takeWhile_append_of_pos hAll, hRest.takeWhile, List.append_nil]
  have hDrop : (ds ++ rest).dropWhile (isDigitOf 10) = rest := by
    rw [List.dropWhile_append_of_pos hAll, hRest.dropWhile]
  have hSome : ds.isEmpty = false := by simpa using hNe
  have hSign : sign ((b ++ '+' :: (ds ++ rest)).dropWhile isSpace) = (false, ds ++ rest) := by
    rw [List.dropWhile_append_of_pos hBlank]
    rfl
  rw [decimalNumber, number, hSign]
  simp only [hTake, hDrop, hSome, Bool.false_eq_true, if_false]

theorem decimalNumber_numeral (hBlank : Blank b) (hSize : Numeral numeral size) (hRest : Stops rest) :
    ∃ negative v, decimalNumber (b ++ (numeral ++ rest)) = some (negative, v, rest) ∧
      size = if negative then -(v : Int) else v := by
  cases hSize with
  | plain hDigits hNe => exact ⟨_, _, (decimalNumber_digits b hBlank hDigits hNe hRest).1, rfl⟩
  | plus hDigits hNe => exact ⟨_, _, decimalNumber_plus hBlank hDigits hNe hRest, rfl⟩
  | minus hDigits hNe => exact ⟨_, _, (decimalNumber_digits b hBlank hDigits hNe hRest).2, rfl⟩

theorem sign_cases (s : Word) : (sign s = (false, s)) ∨ (∃ cs, s = '+' :: cs ∧ sign s = (false, cs)) ∨
    ∃ cs, s = '-' :: cs ∧ sign s = (true, cs) := by
  unfold sign
  split
  · rename_i cs
    exact .inr (.inr ⟨cs, rfl, rfl⟩)
  · rename_i cs
    exact .inr (.inl ⟨cs, rfl, rfl⟩)
  · exact .inl rfl

theorem numeral_of_decimalNumber {negative : Bool} {v : Nat} (h : decimalNumber s = some (negative, v, rest)) :
    ∃ b numeral, s = b ++ (numeral ++ rest) ∧ Blank b ∧ Numeral numeral (if negative then -(v : Int) else v) := by
  have hBlank : Blank (s.takeWhile isSpace) := fun c hc => List.mem_takeWhile_imp hc
  have hSplit : s.takeWhile isSpace ++ s.dropWhile isSpace = s := List.takeWhile_append_dropWhile
  have hNumber : ∀ cs, sign (s.dropWhile isSpace) = (negative, cs) → ∃ ds, cs = ds ++ rest ∧
      (∀ c ∈ ds, isDigit c = true) ∧ ds ≠ [] ∧ v = valueOf 10 ds := by
    intro cs hSign
    rw [decimalNumber, number, hSign] at h
    dsimp only at h
    split at h
    · cases h
    · rename_i hSome
      cases h
      exact ⟨_, List.takeWhile_append_dropWhile.symm, fun c hc => List.mem_takeWhile_imp hc, by simpa using hSome, rfl⟩
  have hFirst : (sign (s.dropWhile isSpace)).1 = negative := by
    rw [decimalNumber, number] at h
    dsimp only at h
    split at h
    · cases h
    · cases h
      rfl
  rcases sign_cases (s.dropWhile isSpace) with hSign | ⟨cs, hText, hSign⟩ | ⟨cs, hText, hSign⟩
  · rw [hSign] at hFirst
    subst hFirst
    obtain ⟨ds, hText, hDigits, hNe, rfl⟩ := hNumber _ hSign
    exact ⟨_, ds, by rw [← hText, hSplit], hBlank, .plain hDigits hNe⟩
  · rw [hSign] at hFirst
    subst hFirst
    obtain ⟨ds, rfl, hDigits, hNe, rfl⟩ := hNumber _ hSign
    refine ⟨_, '+' :: ds, ?_, hBlank, .plus hDigits hNe⟩
    rw [List.cons_append, ← hText, hSplit]
  · rw [hSign] at hFirst
    subst hFirst
    obtain ⟨ds, rfl, hDigits, hNe, rfl⟩ := hNumber _ hSign
    refine ⟨_, '-' :: ds, ?_, hBlank, .minus hDigits hNe⟩
    rw [List.cons_append, ← hText, hSplit]

theorem stops_bracket (h : Blank b) (rest : Word) : Stops (b ++ ']' :: rest) := by
  cases b with
  | nil => exact Stops.cons (by decide) rest
  | cons c b =>
    apply Stops.cons
    by_contra hDigit
    rw [Bool.not_eq_false] at hDigit
    have hSpace := h c List.mem_cons_self
    rw [digit_not_space hDigit] at hSpace
    cases hSpace

/-! ## All sizes -/

/-- A size that can be stored and is not refused. -/
def Size (n : Int) : Prop := n ≠ 0 ∧ InInt n

theorem readInt_numeral (hBlank : Blank b) (hSize : Numeral numeral size) (hFits : InInt size) (hRest : Stops rest) :
    readInt (.of (b ++ (numeral ++ rest))) = (size, ⟨rest, rest.isEmpty, false⟩) := by
  obtain ⟨negative, v, hNumber, rfl⟩ := decimalNumber_numeral hBlank hSize hRest
  rw [readInt, Bes.IStream.of]
  simp only [hNumber, Bool.or_self, Bool.false_eq_true, if_false]
  rw [if_neg (not_lt.mpr hFits.1), if_neg (not_lt.mpr hFits.2)]

theorem readInt_ok (h : (readInt (.of s)).2.fail = false) : ∃ b numeral rest, s = b ++ (numeral ++ rest) ∧ Blank b ∧
    Numeral numeral (readInt (.of s)).1 ∧ InInt (readInt (.of s)).1 ∧
      (readInt (.of s)).2 = ⟨rest, rest.isEmpty, false⟩ := by
  rw [readInt, Bes.IStream.of] at h ⊢
  simp only [Bool.or_self, Bool.false_eq_true, if_false] at h ⊢
  cases hNumber : decimalNumber s with
  | none =>
    rw [hNumber] at h
    cases h
  | some found =>
    obtain ⟨negative, v, rest⟩ := found
    rw [hNumber] at h
    obtain ⟨b, numeral, hText, hBlank, hNumeral⟩ := numeral_of_decimalNumber hNumber
    dsimp only at h ⊢
    generalize (if negative = true then -(v : Int) else v) = size at h hNumeral ⊢
    by_cases hLow : size < -2147483648
    · rw [if_pos hLow] at h
      cases h
    · by_cases hHigh : INT_MAX < size
      · rw [if_neg hLow, if_pos hHigh] at h
        cases h
      · rw [if_neg hLow, if_neg hHigh]
        exact ⟨b, numeral, rest, hText, hBlank, hNumeral, ⟨not_lt.mp hLow, not_lt.mp hHigh⟩, rfl⟩

/-- The sizes that are written are read. -/
theorem parseLoop_written {sizes : List Int} (h : Written s sizes) (hSizes : ∀ size ∈ sizes, Size size)
    (hFuel : s.length < n) : parseLoop shape n (.of s) pos dims = .ok (dims ++ sizes) := by
  induction h generalizing n pos dims with
  | nil h =>
    obtain ⟨n, rfl⟩ : ∃ m, n = m + 1 := ⟨n - 1, by omega⟩
    rw [parseLoop, readChar_blank h, List.append_nil]
    rfl
  | @cons b₁ b₂ b₃ numeral rest size sizes h₁ h₂ h₃ hSize hRest ih =>
    obtain ⟨n, rfl⟩ : ∃ m, n = m + 1 := ⟨n - 1, by omega⟩
    obtain ⟨hZero, hFits⟩ := hSizes size List.mem_cons_self
    have hInt := readInt_numeral h₂ hSize hFits (stops_bracket h₃ rest)
    have hBehind : (⟨b₃ ++ ']' :: rest, (b₃ ++ ']' :: rest).isEmpty, false⟩ : Bes.IStream) = .of (b₃ ++ ']' ::
        rest) := by
      rw [Bes.IStream.of]
      simp
    rw [hBehind] at hInt
    have hLess : rest.length < n := by
      simp only [List.length_append, List.length_cons] at hFuel
      omega
    rw [parseLoop, readChar_some h₁ (by decide)]
    dsimp only
    rw [if_neg (by simp [Bes.IStream.of]), if_neg (by simp [Bes.IStream.of]), hInt]
    dsimp only
    rw [if_neg (by simp [Bes.IStream.of, hZero]), readChar_some h₃ (by decide)]
    dsimp only
    rw [if_neg (by simp [Bes.IStream.of]), if_neg (by simp [Bes.IStream.of]),
      ih (fun size hMem => hSizes size (List.mem_cons_of_mem _ hMem)) hLess, List.append_assoc]
    rfl

/-- Whatever is read is written, and everything else is refused with an error. -/
theorem parseLoop_cases (hFuel : s.length < n) :
    (∃ sizes, parseLoop shape n (.of s) pos dims = .ok (dims ++ sizes) ∧ Written s sizes ∧ ∀ size ∈ sizes, Size size) ∨
      ∃ msg, parseLoop shape n (.of s) pos dims = .error (.Error msg) := by
  induction n generalizing s pos dims with
  | zero => omega
  | succ n ih =>
    rw [parseLoop]
    rcases readChar_cases '\x00' s with ⟨hBlank, hLeft⟩ | ⟨b₁, c, t, rfl, h₁, -, hLeft⟩
    · rw [hLeft]
      exact .inl ⟨[], by rw [List.append_nil]; rfl, .nil hBlank, fun _ hMem => absurd hMem List.not_mem_nil⟩
    rw [hLeft]
    dsimp only
    rw [if_neg (by simp [Bes.IStream.of])]
    by_cases hBracket : c = '['
    swap
    · rw [if_pos (.inl hBracket)]
      exact .inr ⟨_, rfl⟩
    subst hBracket
    rw [if_neg (by simp [Bes.IStream.of])]
    by_cases hBad : (readInt (.of t)).1 = 0 ∨ (readInt (.of t)).2.fail
    · rw [if_pos hBad]
      exact .inr ⟨_, rfl⟩
    rw [if_neg hBad, not_or] at *
    obtain ⟨b₂, numeral, u, rfl, h₂, hNumeral, hFits, hStream⟩ := readInt_ok (Bool.eq_false_iff.mpr hBad.2)
    have hZero := hBad.1
    rw [hStream]
    generalize (readInt (.of (b₂ ++ (numeral ++ u)))).1 = size at hNumeral hFits hZero ⊢
    cases u with
    | nil => exact .inr ⟨_, rfl⟩
    | cons d u =>
      have hOpen : (⟨d :: u, (d :: u).isEmpty, false⟩ : Bes.IStream) = .of (d :: u) := rfl
      rw [hOpen]
      rcases readChar_cases '[' (d :: u) with ⟨-, hRight⟩ | ⟨b₃, c, rest, hText, h₃, -, hRight⟩
      · rw [hRight]
        exact .inr ⟨_, rfl⟩
      rw [hRight, hText]
      dsimp only
      by_cases hBracket : c = ']'
      swap
      · rw [if_pos (.inl hBracket)]
        exact .inr ⟨_, rfl⟩
      subst hBracket
      rw [if_neg (by simp [Bes.IStream.of]), if_neg (by simp [Bes.IStream.of])]
      have hLess : rest.length < n := by
        rw [hText] at hFuel
        simp only [List.length_append, List.length_cons] at hFuel
        omega
      rcases ih (s := rest) hLess with ⟨sizes, hOk, hWritten, hSizes⟩ | hError
      · refine .inl ⟨size :: sizes, ?_, .cons h₁ h₂ h₃ hNumeral hWritten, ?_⟩
        · rw [hOk, List.append_assoc]
          rfl
        · intro other hMem
          rcases List.mem_cons.mp hMem with rfl | hMem
          · exact ⟨hZero, hFits⟩
          · exact hSizes other hMem
      · exact .inr hError

theorem parseDims_cases (shape : Word) :
    (∃ sizes, parseDims shape = .ok sizes ∧ Written shape sizes ∧ ∀ size ∈ sizes, Size size) ∨
      ∃ msg, parseDims shape = .error (.Error msg) := parseLoop_cases (Nat.lt_succ_self _)

/-- The dimensions are the sizes that the shape gives. -/
theorem parseDims_ok (shape : Word) (sizes : List Int) :
    parseDims shape = .ok sizes ↔ Written shape sizes ∧ ∀ size ∈ sizes, Size size := by
  constructor
  · intro h
    rcases parseDims_cases shape with ⟨found, hOk, hWritten⟩ | ⟨msg, hError⟩
    · rw [hOk] at h
      cases h
      exact hWritten
    · rw [hError] at h
      cases h
  · rintro ⟨hWritten, hSizes⟩
    exact parseLoop_written hWritten hSizes (Nat.lt_succ_self _)

example : parseDims "[2][ +3 ] [-4]".toList = .ok [2, 3, -4] := by decide

end

end Libdap.Functions
