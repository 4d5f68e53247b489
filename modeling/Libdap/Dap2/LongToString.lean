import Libdap.Constraint.Word
import Libdap.Core.Scan
import Mathlib.Data.List.Forall2

/-! # Numbers as text

`append_long_to_string` writes the digits of the quotient before the last digit. A `long` has 64 bits, and its least
value has no absolute value.
-/

namespace Libdap.Dap2
open Core Constraint
set_option autoImplicit false

def LONG_MIN : Int := -9223372036854775808

def IsLong (val : Int) : Prop := LONG_MIN ≤ val ∧ val ≤ LONG_MAX

def digits : Word := "0123456789ABCDEFGHIJKLMNOPQRSTUVWXYZ".toList

inductive LongFault
  | invalidArgument (msg : String)
  | fault (f : Fault)
  deriving DecidableEq, Repr

/-- `labs` -/
def labs (val : Int) : Except LongFault Nat := if val = LONG_MIN then .error (.fault .undefined) else .ok val.natAbs

/-- `digits[rem]` -/
def digit (rem : Nat) : Except LongFault Char :=
  match digits[rem]? with
  | some c => .ok c
  | none => .error (.fault .outOfBounds)

theorem labs_ok {val : Int} {abs : Nat} (h : labs val = .ok abs) : abs = val.natAbs := by
  rw [labs] at h
  split at h
  · cases h
  · exact (Except.ok.inj h).symm

/-- The digits of the quotient come before the last digit. -/
def appendLongToString (val base : Int) (strVal : Word) : Except LongFault Word :=
  if 36 < base ∨ base < 2 then .error (.invalidArgument "The parameter base has an invalid value.")
  else
    let signed := if val < 0 then strVal ++ ['-'] else strVal
    match _hAbs : labs val with
    | .error e => .error e
    | .ok abs =>
      if 0 < abs / base.toNat then do
        let leading ← appendLongToString (abs / base.toNat : Nat) base signed
        let last ← digit (abs % base.toNat)
        .ok (leading ++ [last])
      else do
        let last ← digit (abs % base.toNat)
        .ok (signed ++ [last])
termination_by val.natAbs
decreasing_by
  rename_i hBase hQuot
  rw [labs_ok _hAbs] at hQuot ⊢
  rw [Int.natAbs_natCast]
  exact Nat.div_lt_self (Nat.pos_of_div_pos hQuot) (by omega)

def longToString (val base : Int) : Except LongFault Word := appendLongToString val base []

/-- The digits of a number, the first of which is no zero but for the number zero. -/
structure Represents (base : Nat) (ds : List Nat) (n : Nat) : Prop where
  below : ∀ d ∈ ds, d < base
  value : ds.foldl (fun v d => v * base + d) 0 = n
  nonempty : ds ≠ []
  canonical : ds.head? = some 0 → ds = [0]

/-- The characters are those of the digits. -/
def Writes (base : Nat) (cs : Word) (n : Nat) : Prop :=
  ∃ ds, Represents base ds n ∧ List.Forall₂ (fun d c => digits[d]? = some c) ds cs

theorem represents_digit {base n : Nat} (h : n < base) : Represents base [n] n where
  below d hd := by rwa [List.mem_singleton.mp hd]
  value := by rw [List.foldl_cons, List.foldl_nil, Nat.zero_mul, Nat.zero_add]
  nonempty := List.cons_ne_nil n []
  canonical hZero := by rw [Option.some.inj hZero]

theorem Represents.append {base n : Nat} {ds : List Nat} (h : Represents base ds (n / base)) (hPos : 0 < n / base)
    (hBase : 0 < base) : Represents base (ds ++ [n % base]) n where
  below d hd := by
    rcases List.mem_append.mp hd with hd | hd
    · exact h.below d hd
    · rw [List.mem_singleton.mp hd]
      exact Nat.mod_lt n hBase
  value := by
    rw [List.foldl_append, h.value, List.foldl_cons, List.foldl_nil]
    exact Nat.div_add_mod' n base
  nonempty := List.append_ne_nil_of_left_ne_nil h.nonempty _
  canonical hZero := by
    obtain ⟨d, ds, rfl⟩ := List.exists_cons_of_ne_nil h.nonempty
    have hValue := h.value
    rw [h.canonical hZero, List.foldl_cons, List.foldl_nil, Nat.zero_mul] at hValue
    exact absurd hValue (Nat.ne_of_lt hPos)

section
variable {base : Int} {val : Int} {n : Nat}

theorem digit_ok (hn : n < 36) : ∃ c, digit n = .ok c ∧ digits[n]? = some c := by
  have hIn : n < digits.length := hn
  refine ⟨digits[n], ?_, List.getElem?_eq_getElem hIn⟩
  rw [digit, List.getElem?_eq_getElem hIn]

theorem labs_natCast (n : Nat) : labs n = .ok n := by
  have hNot : (n : Int) ≠ LONG_MIN := by
    rw [LONG_MIN]
    omega
  rw [labs, if_neg hNot, Int.natAbs_natCast]

/-- What the call does behind the sign. -/
theorem append_abs (hVal : val ≠ LONG_MIN) (strVal : Word) : appendLongToString val base strVal =
    appendLongToString val.natAbs base (if val < 0 then strVal ++ ['-'] else strVal) := by
  have hAbs : labs val = .ok val.natAbs := if_neg hVal
  have hNot : ¬(val.natAbs : Int) < 0 := Int.not_lt.mpr (Int.natCast_nonneg _)
  rw [appendLongToString, appendLongToString]
  by_cases hBase : 36 < base ∨ base < 2
  · rw [if_pos hBase, if_pos hBase]
  · rw [if_neg hBase, if_neg hBase]
    dsimp only
    rw [hAbs, labs_natCast, if_neg hNot]

theorem appended (hBase : 2 ≤ base ∧ base ≤ 36) (n : Nat) (strVal : Word) :
    ∃ cs, Writes base.toNat cs n ∧ appendLongToString n base strVal = .ok (strVal ++ cs) := by
  induction n using Nat.strong_induction_on generalizing strVal with
  | _ n ih =>
    have hNot : ¬(n : Int) < 0 := Int.not_lt.mpr (Int.natCast_nonneg n)
    have hRem : n % base.toNat < 36 := by
      have hLess := Nat.mod_lt n (y := base.toNat) (by omega)
      omega
    obtain ⟨c, hDigit, hTable⟩ := digit_ok hRem
    rw [appendLongToString, if_neg (by omega), labs_natCast, if_neg hNot]
    dsimp only
    by_cases hQuot : 0 < n / base.toNat
    · have hLess : n / base.toNat < n := Nat.div_lt_self (Nat.pos_of_div_pos hQuot) (by omega)
      obtain ⟨cs, ⟨ds, hDigits, hChars⟩, hLeading⟩ := ih _ hLess strVal
      rw [if_pos hQuot, hLeading, hDigit, ok_bind, ok_bind]
      refine ⟨cs ++ [c], ⟨ds ++ [n % base.toNat], hDigits.append hQuot (by omega), ?_⟩, by rw [List.append_assoc]⟩
      exact List.rel_append hChars (.cons hTable .nil)
    · have hSmall : n < base.toNat := by
        rwa [Nat.not_lt, Nat.le_zero, Nat.div_eq_zero_iff_lt (by omega)] at hQuot
      rw [Nat.mod_eq_of_lt hSmall] at hDigit hTable
      rw [if_neg hQuot, Nat.mod_eq_of_lt hSmall, hDigit, ok_bind]
      exact ⟨[c], ⟨[n], represents_digit hSmall, .cons hTable .nil⟩, rfl⟩

theorem append_least (hBase : 2 ≤ base ∧ base ≤ 36) (strVal : Word) :
    appendLongToString LONG_MIN base strVal = .error (.fault .undefined) := by
  rw [appendLongToString, if_neg (by omega)]
  rfl

/-- Every value but the least is written as its canonical form, behind a sign where it is negative. -/
theorem long_written_iff (val base : Int) (strVal : Word) (hVal : IsLong val) (hBase : 2 ≤ base ∧ base ≤ 36) :
    (∃ cs, Writes base.toNat cs val.natAbs ∧
      appendLongToString val base strVal = .ok (strVal ++ (if val < 0 then ['-'] else []) ++ cs)) ↔
      val ≠ LONG_MIN := by
  constructor
  · rintro ⟨cs, -, hText⟩ rfl
    rw [append_least hBase] at hText
    cases hText
  · intro hMin
    obtain ⟨cs, hWrites, hText⟩ := appended hBase val.natAbs (if val < 0 then strVal ++ ['-'] else strVal)
    refine ⟨cs, hWrites, ?_⟩
    rw [append_abs hMin, hText]
    split
    · rfl
    · rw [List.append_nil]

theorem least_not_written : ¬∃ cs, Writes (10 : Int).toNat cs LONG_MIN.natAbs ∧
    appendLongToString LONG_MIN 10 [] = .ok ([] ++ (if LONG_MIN < 0 then ['-'] else []) ++ cs) := by
  rintro ⟨cs, -, hText⟩
  rw [append_least (by decide)] at hText
  cases hText

theorem minus_255_written : IsLong (-255) ∧ ∃ cs, Writes (16 : Int).toNat cs (-255 : Int).natAbs ∧
    appendLongToString (-255) 16 [] = .ok ([] ++ (if (-255 : Int) < 0 then ['-'] else []) ++ cs) := by
  have hVal : IsLong (-255) := ⟨by decide, by decide⟩
  exact ⟨hVal, (long_written_iff (-255) 16 [] hVal (by decide)).mpr (by decide)⟩

end

end Libdap.Dap2
