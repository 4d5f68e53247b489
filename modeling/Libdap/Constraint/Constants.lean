import Libdap.Constraint.Index
import Libdap.Dap2.Escaping
import Mathlib.Data.List.Induction
import Mathlib.Data.List.TakeWhile

/-! # The numbers that constants and indices are made of

A word is validated in the base of its own form and read once more in base ten.
-/

namespace Libdap.Constraint
open Core
set_option autoImplicit false

/-- A value over `LONG_MAX` sets `ERANGE`; it is out of the range of `DODS_INT` too. -/
def checkInt32 (val : Word) : Bool :=
  match number baseOf val with
  | none => false
  | some (negative, v, ptr) => ptr.isEmpty && if negative then v ≤ 2147483648 else v ≤ INT_MAX

/-- A `value` of the parser, and the variable that `make_variable` wraps around it. The text of a float stands for what
`atof` reads. -/
inductive Constant
  | int32 (n : Int)
  | uint32 (n : Nat)
  | float64 (text : Word)
  | str (s : Word)
  deriving DecidableEq, Repr

/-- The constant of the rule `id_or_const`, for a word that names no variable. -/
def constant (unset : Word) (checkFloat64 : Word → Bool) (w : Word) : Constant :=
  if checkInt32 w then .int32 (atoi w)
  else if checkUint32 w then .uint32 (uint32 (atoi w))
  else if checkFloat64 w then .float64 w
  else .str (Dap2.www2id unset w)

/-- The number that the checks look at. -/
def validated (w : Word) : Int :=
  match number baseOf w with
  | none => 0
  | some (negative, v, _) => if negative then -v else v

def accepted (w : Word) : Bool := checkInt32 w || checkUint32 w

/-- The base of a word and its digits. -/
def numberPart (w : Word) : Nat × Word := baseOf (sign (w.dropWhile isSpace)).2

/-- The word in base ten is the same number. -/
def ReadsAlike (w : Word) : Prop :=
  (numberPart w).1 = 10 ∨
    (numberPart w).1 = 8 ∧ valueOf 10 (numberPart w).2 % 4294967296 = valueOf 8 (numberPart w).2 % 4294967296 ∨
    (numberPart w).1 = 16 ∧ valueOf 16 (numberPart w).2 = 0

instance (w : Word) : Decidable (ReadsAlike w) := inferInstanceAs (Decidable (_ ∨ _ ∧ _ ∨ _ ∧ _))

namespace Constant

/-- The variable is of the type that the word was accepted for, and holds its number. -/
def Holds (w : Word) : Constant → Prop
  | int32 n => checkInt32 w = true ∧ n = validated w
  | uint32 n => checkInt32 w = false ∧ (n : Int) = validated w
  | float64 _ => False
  | str _ => False

end Constant

namespace ArrayIndex

def words : ArrayIndex → List Word
  | .at n => [n]
  | star => []
  | range n m => [n, m]
  | rangeStar n => [n]
  | strided n s m => [n, s, m]
  | stridedStar n s => [n, s]

/-- What the brackets say. -/
def validIndex : ArrayIndex → Index
  | .at n => ⟨validated n, 1, validated n⟩
  | star => ⟨0, 1, -1⟩
  | range n m => ⟨validated n, 1, validated m⟩
  | rangeStar n => ⟨validated n, 1, -1⟩
  | strided n s m => ⟨validated n, validated s, validated m⟩
  | stridedStar n s => ⟨validated n, validated s, -1⟩

end ArrayIndex

/-! ## The two readings -/

theorem valueOf_append (base : Nat) (digits : Word) (c : Char) :
    valueOf base (digits ++ [c]) = valueOf base digits * base + (digitOf c).getD 0 := by
  rw [valueOf, List.foldl_append]
  rfl

/-- The digits of a number read in a greater base give no more digits. -/
theorem valueOf_lt_pow {digits : Word} (hDigits : ∀ c ∈ digits, isDigitOf 8 c = true) {k : Nat}
    (h : valueOf 8 digits < 8 ^ k) : valueOf 10 digits < 10 ^ k := by
  induction digits using List.reverseRecOn generalizing k with
  | nil => exact Nat.pow_pos (by decide)
  | append_singleton digits c ih =>
    have hFront : ∀ d ∈ digits, isDigitOf 8 d = true := fun d hd => hDigits d (List.mem_append_left _ hd)
    have hc : (digitOf c).getD 0 < 8 := by
      have hDigit := hDigits c (by simp)
      rw [isDigitOf] at hDigit
      cases hOf : digitOf c with
      | none => decide
      | some d =>
        rw [hOf] at hDigit
        exact of_decide_eq_true hDigit
    rw [valueOf_append] at h ⊢
    cases k with
    | zero =>
      have hLess := ih hFront (k := 0) (by omega)
      omega
    | succ k =>
      have hLess := ih hFront (k := k) (by omega)
      omega

theorem isDigitOf_mono {b b' : Nat} (h : b ≤ b') {c : Char} (hc : isDigitOf b c = true) : isDigitOf b' c = true := by
  rw [isDigitOf] at hc ⊢
  cases hOf : digitOf c with
  | none =>
    rw [hOf] at hc
    cases hc
  | some d =>
    rw [hOf] at hc
    exact decide_eq_true (Nat.lt_of_lt_of_le (of_decide_eq_true hc) h)

/-- The three forms of a number. -/
theorem baseOf_cases (cs : Word) : baseOf cs = (10, cs) ∨ baseOf cs = (8, cs) ∨
    ∃ x ds, (x = 'x' ∨ x = 'X') ∧ cs = '0' :: x :: ds ∧ baseOf cs = (16, ds) := by
  rw [baseOf.eq_def]
  split
  · split
    · rename_i x c cs hHex
      exact .inr (.inr ⟨x, c :: cs, hHex.1, rfl, rfl⟩)
    · exact .inr (.inl rfl)
  · exact .inr (.inl rfl)
  · exact .inl rfl

theorem number_eq_some {base : Word → Nat × Word} {w ptr : Word} {negative : Bool} {v : Nat} :
    number base w = some (negative, v, ptr) ↔
      (base (sign (w.dropWhile isSpace)).2).2.takeWhile (isDigitOf (base (sign (w.dropWhile isSpace)).2).1) ≠ [] ∧
      negative = (sign (w.dropWhile isSpace)).1 ∧
      v = valueOf (base (sign (w.dropWhile isSpace)).2).1
        ((base (sign (w.dropWhile isSpace)).2).2.takeWhile (isDigitOf (base (sign (w.dropWhile isSpace)).2).1)) ∧
      ptr = (base (sign (w.dropWhile isSpace)).2).2.dropWhile (isDigitOf (base (sign (w.dropWhile isSpace)).2).1) := by
  rw [number]
  dsimp only
  split
  · rename_i hEmpty
    constructor
    · intro h
      cases h
    · rintro ⟨hSome, -⟩
      exact absurd (List.isEmpty_iff.mp hEmpty) hSome
  · rename_i hSome
    constructor
    · intro h
      cases h
      exact ⟨fun h => hSome (List.isEmpty_iff.mpr h), rfl, rfl, rfl⟩
    · rintro ⟨-, rfl, rfl, rfl⟩
      rfl

/-- A word that is a number from its sign to its end. -/
structure IsNumber (w : Word) (negative : Bool) (v : Nat) : Prop where
  sign_eq : (sign (w.dropWhile isSpace)).1 = negative
  digits : ∀ c ∈ (numberPart w).2, isDigitOf (numberPart w).1 c = true
  nonempty : (numberPart w).2 ≠ []
  value : v = valueOf (numberPart w).1 (numberPart w).2

theorem isNumber_of_number {w : Word} {negative : Bool} {v : Nat} (h : number baseOf w = some (negative, v, [])) :
    IsNumber w negative v := by
  obtain ⟨hSome, hSign, hValue, hEnd⟩ := number_eq_some.mp h
  have hAll : (numberPart w).2.takeWhile (isDigitOf (numberPart w).1) = (numberPart w).2 := by
    have hSplit := List.takeWhile_append_dropWhile (p := isDigitOf (numberPart w).1) (l := (numberPart w).2)
    rw [numberPart, ← hEnd, List.append_nil] at hSplit
    exact hSplit
  refine ⟨hSign.symm, List.takeWhile_eq_self_iff.mp hAll, ?_, ?_⟩
  · rw [← hAll]
    exact hSome
  · rw [hValue]
    change valueOf _ ((numberPart w).2.takeWhile (isDigitOf (numberPart w).1)) = _
    rw [hAll]
    rfl

/-- `atoi` of a number that fits reads a number that fits too, and it is the same one modulo 2 ^ 32 in the words that
read alike. -/
theorem IsNumber.atoi_eq {w : Word} {negative : Bool} {v : Nat} (h : IsNumber w negative v) (hv : v ≤ UINT_MAX) :
    ∃ v10 : Nat, atoi w = int32 (if negative then -v10 else v10) ∧
      (ReadsAlike w ↔ v10 % 4294967296 = v % 4294967296) := by
  obtain ⟨hSign, hDigits, hSome, hValue⟩ := h
  -- All of the digits are read when they are digits in base ten.
  have hPlain : ∀ v10, (∀ c ∈ (sign (w.dropWhile isSpace)).2, isDigitOf 10 c = true) →
      (sign (w.dropWhile isSpace)).2 ≠ [] → valueOf 10 (sign (w.dropWhile isSpace)).2 = v10 →
      number (fun cs => (10, cs)) w = some (negative, v10, []) := by
    intro v10 hAll hNonempty hv10
    have hTake := List.takeWhile_eq_self_iff.mpr hAll
    have hDrop := List.dropWhile_eq_nil_iff.mpr hAll
    rw [number_eq_some]
    dsimp only
    rw [hTake, hDrop]
    exact ⟨hNonempty, hSign.symm, hv10.symm, rfl⟩
  have hAtoi : ∀ v10 ptr, number (fun cs => (10, cs)) w = some (negative, v10, ptr) → (v10 : Int) ≤ LONG_MAX →
      atoi w = int32 (if negative then -v10 else v10) := by
    intro v10 ptr hRun hMax
    rw [atoi, hRun]
    dsimp only
    cases negative with
    | false => rw [if_neg (by decide), if_neg (by decide), min_eq_right hMax]
    | true =>
      rw [if_pos rfl, if_pos rfl, max_eq_right]
      simp only [LONG_MAX] at hMax ⊢
      omega
  simp only [UINT_MAX] at hv
  obtain hForm | hForm | ⟨x, ds, hx, hWord, hForm⟩ := baseOf_cases (sign (w.dropWhile isSpace)).2
  · rw [numberPart, hForm] at hDigits hSome hValue
    refine ⟨v, hAtoi v [] (hPlain v hDigits hSome hValue.symm) (by simp only [LONG_MAX]; omega), ?_⟩
    rw [ReadsAlike, numberPart, hForm]
    exact ⟨fun _ => rfl, fun _ => .inl rfl⟩
  · rw [numberPart, hForm] at hDigits hSome hValue
    have hLess : valueOf 10 (sign (w.dropWhile isSpace)).2 < 10 ^ 11 :=
      valueOf_lt_pow hDigits (by rw [← hValue]; omega)
    refine ⟨valueOf 10 (sign (w.dropWhile isSpace)).2,
      hAtoi _ [] (hPlain _ (fun c hc => isDigitOf_mono (show 8 ≤ 10 by decide) (hDigits c hc)) hSome rfl) ?_, ?_⟩
    · simp only [LONG_MAX]
      omega
    · rw [ReadsAlike, numberPart, hForm, hValue]
      simp
  · rw [numberPart, hForm] at hDigits hSome hValue
    have hStop : isDigitOf 10 x = false := by
      obtain rfl | rfl := hx <;> decide
    have hZero : number (fun cs => (10, cs)) w = some (negative, 0, x :: ds) := by
      have hTake : List.takeWhile (isDigitOf 10) ('0' :: x :: ds) = ['0'] := by
        rw [List.takeWhile_cons, if_pos (by decide), List.takeWhile_cons, hStop]
        rfl
      have hDrop : List.dropWhile (isDigitOf 10) ('0' :: x :: ds) = x :: ds := by
        rw [List.dropWhile_cons, if_pos (by decide), List.dropWhile_cons, hStop]
        rfl
      rw [number_eq_some, hWord]
      dsimp only
      rw [hTake, hDrop]
      exact ⟨by simp, hSign.symm, by decide, rfl⟩
    refine ⟨0, hAtoi 0 _ hZero (by decide), ?_⟩
    rw [ReadsAlike, numberPart, hForm, ← hValue]
    simp
    omega

theorem checkInt32_number {w : Word} (h : checkInt32 w = true) : ∃ negative v, IsNumber w negative v ∧
    validated w = (if negative then -(v : Int) else v) ∧ if negative then v ≤ 2147483648 else v ≤ INT_MAX := by
  rw [checkInt32] at h
  cases hNumber : number baseOf w with
  | none =>
    rw [hNumber] at h
    cases h
  | some r =>
    obtain ⟨negative, v, ptr⟩ := r
    rw [hNumber] at h
    rw [Bool.and_eq_true, List.isEmpty_iff] at h
    obtain ⟨rfl, hBound⟩ := h
    refine ⟨negative, v, isNumber_of_number hNumber, ?_, ?_⟩
    · rw [validated, hNumber]
    · cases negative with
      | false => exact of_decide_eq_true hBound
      | true => exact of_decide_eq_true hBound

theorem checkUint32_number {w : Word} (h : checkUint32 w = true) :
    ∃ v : Nat, IsNumber w false v ∧ validated w = v ∧ v ≤ UINT_MAX := by
  rw [checkUint32] at h
  split at h
  · cases h
  · rename_i hHead
    cases hNumber : number baseOf w with
    | none =>
      rw [hNumber] at h
      cases h
    | some r =>
      obtain ⟨negative, v, ptr⟩ := r
      rw [hNumber] at h
      simp only [Bool.and_eq_true, List.isEmpty_iff, decide_eq_true_eq] at h
      obtain ⟨rfl, hBound⟩ := h
      have hWord := isNumber_of_number hNumber
      have hSign : negative = false := by
        rw [← hWord.sign_eq]
        cases hSkip : w.dropWhile isSpace with
        | nil => rfl
        | cons c cs =>
          rw [hSkip, List.head?_cons, Option.some_inj] at hHead
          rw [sign.eq_def]
          split
          · rename_i hEq
            cases hEq
            exact absurd rfl hHead
          · rfl
          · rfl
      subst hSign
      refine ⟨v, hWord, ?_, hBound⟩
      rw [validated, hNumber]
      exact if_neg (by decide)

theorem int32_constant_iff {w : Word} (h : checkInt32 w = true) : atoi w = validated w ↔ ReadsAlike w := by
  obtain ⟨negative, v, hWord, hValid, hBound⟩ := checkInt32_number h
  have hv : v ≤ UINT_MAX := by
    simp only [INT_MAX] at hBound
    simp only [UINT_MAX]
    split at hBound <;> omega
  obtain ⟨v10, hAtoi, hAlike⟩ := hWord.atoi_eq hv
  rw [hAlike, hAtoi, hValid]
  simp only [int32, INT_MAX] at hBound ⊢
  cases negative with
  | false =>
    simp only [Bool.false_eq_true, if_false] at hBound ⊢
    omega
  | true =>
    simp only [if_true] at hBound ⊢
    omega

theorem uint32_constant_iff {w : Word} (h : checkUint32 w = true) :
    (uint32 (atoi w) : Int) = validated w ↔ ReadsAlike w := by
  obtain ⟨v, hWord, hValid, hBound⟩ := checkUint32_number h
  obtain ⟨v10, hAtoi, hAlike⟩ := hWord.atoi_eq hBound
  rw [hAlike, hAtoi, hValid, if_neg (by decide)]
  simp only [uint32, int32, UINT_MAX] at hBound ⊢
  omega

theorem index_iff {w : Word} (h : checkUint32 w = true) :
    atoi w = validated w ↔ ReadsAlike w ∧ validated w ≤ INT_MAX := by
  obtain ⟨v, hWord, hValid, hBound⟩ := checkUint32_number h
  obtain ⟨v10, hAtoi, hAlike⟩ := hWord.atoi_eq hBound
  rw [hAlike, hAtoi, hValid, if_neg (by decide)]
  simp only [int32, UINT_MAX, INT_MAX] at hBound ⊢
  omega

theorem Constant.holds_iff (unset : Word) (checkFloat64 : Word → Bool) {w : Word} (h : accepted w = true) :
    (constant unset checkFloat64 w).Holds w ↔ ReadsAlike w := by
  rw [accepted, Bool.or_eq_true] at h
  rw [constant]
  split
  · rename_i hInt
    rw [Constant.Holds, int32_constant_iff hInt]
    exact and_iff_right hInt
  · rename_i hInt
    have hUint := h.resolve_left hInt
    rw [if_pos hUint, Constant.Holds, uint32_constant_iff hUint]
    exact and_iff_right (Bool.eq_false_iff.mpr hInt)

namespace ArrayIndex

theorem checked_of_accepted {w : Word} (h : checkUint32 w = true) : checked w = .ok (atoi w) := by
  rw [checked, if_pos h]

theorem validated_nonneg {w : Word} (h : checkUint32 w = true) : 0 ≤ validated w := by
  obtain ⟨v, -, hValid, -⟩ := checkUint32_number h
  rw [hValid]
  exact Int.natCast_nonneg v

theorem action_iff {i : ArrayIndex} (h : ∀ w ∈ i.words, checkUint32 w = true) :
    i.action = .ok i.validIndex ↔ ∀ w ∈ i.words, atoi w = validated w := by
  cases i with
  | «at» n =>
    have hn := h n (by simp [words])
    have hPos := validated_nonneg hn
    rw [action, checked_of_accepted hn, validIndex, words, List.forall_mem_singleton]
    simp only [ok_bind, makeArrayIndex, Except.ok.injEq, Index.mk.injEq]
    constructor
    · rintro ⟨-, -, hStop⟩
      exact hStop
    · intro hEq
      rw [hEq, if_neg (by omega)]
      exact ⟨rfl, trivial, rfl⟩
  | star => exact ⟨fun _ w hw => absurd hw List.not_mem_nil, fun _ => rfl⟩
  | range n m =>
    have hn := h n (by simp [words])
    have hm := h m (by simp [words])
    simp [action, checked_of_accepted hn, checked_of_accepted hm, validIndex, words]
  | rangeStar n =>
    have hn := h n (by simp [words])
    simp [action, checked_of_accepted hn, validIndex, words]
  | strided n s m =>
    have hn := h n (by simp [words])
    have hs := h s (by simp [words])
    have hm := h m (by simp [words])
    simp [action, checked_of_accepted hn, checked_of_accepted hs, checked_of_accepted hm, validIndex, words]
  | stridedStar n s =>
    have hn := h n (by simp [words])
    have hs := h s (by simp [words])
    simp [action, checked_of_accepted hn, checked_of_accepted hs, validIndex, words]

end ArrayIndex

/-- A constant holds the number of its word if and only if the word reads alike in base ten, and an index does if and
only if it is not over the range of `int` either. -/
theorem numbers_held_iff (unset : Word) (checkFloat64 : Word → Bool) :
    (∀ w, accepted w = true → ((constant unset checkFloat64 w).Holds w ↔ ReadsAlike w)) ∧
      ∀ i : ArrayIndex, (∀ w ∈ i.words, checkUint32 w = true) →
        (i.action = .ok i.validIndex ↔ ∀ w ∈ i.words, ReadsAlike w ∧ validated w ≤ INT_MAX) := by
  constructor
  · intro w h
    exact Constant.holds_iff unset checkFloat64 h
  · intro i h
    rw [ArrayIndex.action_iff h]
    exact forall₂_congr fun w hw => index_iff (h w hw)

theorem decimal_numbers_held :
    (constant [] (fun _ => false) "4294967295".toList).Holds "4294967295".toList ∧
      (ArrayIndex.range "0".toList "2147483647".toList).action = .ok ⟨0, 1, 2147483647⟩ := by
  obtain ⟨hConstant, hIndex⟩ := numbers_held_iff [] fun _ => false
  refine ⟨(hConstant _ (by decide)).mpr (by decide), ?_⟩
  exact (hIndex (.range "0".toList "2147483647".toList) (by decide)).mpr (by decide)

/-- A hexadecimal constant is 0, and the greatest index of all is read as a star. -/
theorem hexadecimal_constant_is_zero : checkInt32 "0x10".toList = true ∧ validated "0x10".toList = 16 ∧
    constant [] (fun _ => false) "0x10".toList = .int32 0 ∧ checkUint32 "4294967295".toList = true ∧
      (ArrayIndex.at "4294967295".toList).action = ArrayIndex.star.action := by
  decide

end Libdap.Constraint
