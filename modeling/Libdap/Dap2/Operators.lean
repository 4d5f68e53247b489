import Libdap.Core.Rounding
import Libdap.Core.Fault

/-! # Relational operations on numbers

The values of the two float types are looked at where they are integers. An operand of an unsigned type is compared
with a signed one as `unsigned long long`, with zero in place of a negative number. All others are converted as C++
converts the operands of a comparison: to the wider float type if one of them is a float.
-/

namespace Libdap.Operators
open Core Rounding
set_option autoImplicit false

inductive NumType
  | int8
  | byte
  | int16
  | uint16
  | int32
  | uint32
  | int64
  | uint64
  | float32
  | float64
  deriving DecidableEq, Repr

namespace NumType

def isUnsigned : NumType → Bool
  | byte | uint16 | uint32 | uint64 => true
  | _ => false

/-- The bits of the significand of a float. -/
def significand : NumType → Option Nat
  | float32 => some 24
  | float64 => some 53
  | _ => none

/-- The integers that are values of a type. -/
def Holds : NumType → Int → Prop
  | int8, n => -2 ^ 7 ≤ n ∧ n < 2 ^ 7
  | byte, n => 0 ≤ n ∧ n < 2 ^ 8
  | int16, n => -2 ^ 15 ≤ n ∧ n < 2 ^ 15
  | uint16, n => 0 ≤ n ∧ n < 2 ^ 16
  | int32, n => -2 ^ 31 ≤ n ∧ n < 2 ^ 31
  | uint32, n => 0 ≤ n ∧ n < 2 ^ 32
  | int64, n => -2 ^ 63 ≤ n ∧ n < 2 ^ 63
  | uint64, n => 0 ≤ n ∧ n < 2 ^ 64
  | float32, n => IsFloat 24 n ∧ n.natAbs < 2 ^ 128
  | float64, n => IsFloat 53 n ∧ n.natAbs < 2 ^ 1024

end NumType

structure Value (t : NumType) where
  val : Int
  holds : t.Holds val

/-- The operators of the scanner that compare. -/
inductive Comparison
  | equal
  | notEqual
  | greater
  | greaterEql
  | less
  | lessEql
  deriving DecidableEq, Repr

inductive RelOp
  | rel (c : Comparison)
  | regexp
  | unrecognized
  deriving DecidableEq, Repr

namespace Comparison

def holds : Comparison → Int → Int → Bool
  | equal, v1, v2 => v1 = v2
  | notEqual, v1, v2 => v1 ≠ v2
  | greater, v1, v2 => v1 > v2
  | greaterEql, v1, v2 => v1 ≥ v2
  | less, v1, v2 => v1 < v2
  | lessEql, v1, v2 => v1 ≤ v2

/-- The operator for the operands the other way round. -/
def flip : Comparison → Comparison
  | equal => equal
  | notEqual => notEqual
  | greater => less
  | greaterEql => lessEql
  | less => greater
  | lessEql => greaterEql

end Comparison

/-- The `switch` that the three templates have in common. -/
def relation (op : RelOp) (v1 v2 : Except Fault Int) : Except Fault Bool :=
  match op with
  | .rel c => do
    let a ← v1
    let b ← v2
    .ok (c.holds a b)
  | .regexp => .error (.Error "Regular expressions are supported for strings only.")
  | .unrecognized => .error (.Error "Unrecognized operator.")

/-- The float type to which both operands are converted. -/
def commonFloat (t1 t2 : NumType) : Option Nat :=
  match t1.significand, t2.significand with
  | none, none => none
  | some p, none => some p
  | none, some q => some q
  | some p, some q => some (max p q)

def converted (float : Option Nat) (n : Int) : Int := float.elim n fun p => roundInt p n

def Cmp (t1 t2 : NumType) (op : RelOp) (v1 v2 : Int) : Except Fault Bool :=
  relation op (.ok (converted (commonFloat t1 t2) v1)) (.ok (converted (commonFloat t1 t2) v2))

/-- A float over the range of `unsigned long long` has no value there. -/
def dapFloorZero (i : Int) : Except Fault Int :=
  if i < 0 then .ok 0 else if i < 2 ^ 64 then .ok i else .error .undefined

def USCmp (op : RelOp) (v1 v2 : Int) : Except Fault Bool := relation op (.ok v1) (dapFloorZero v2)

def SUCmp (op : RelOp) (v1 v2 : Int) : Except Fault Bool := relation op (dapFloorZero v1) (.ok v2)

/-- A variable with its value; without one, when `read` brings none. -/
structure NumericVariable where
  type : NumType
  value : Option (Value type)

inductive Operand
  | numeric (v : NumericVariable)
  | other (readable : Bool)

def Operand.readable : Operand → Bool
  | numeric v => v.value.isSome
  | other readable => readable

/-- The `switch` on the type of the second operand. -/
def typeSwitch (t1 : NumType) (d_buf : Int) (op : RelOp) : Operand → Except Fault Bool
  | .numeric ⟨t2, some v2⟩ =>
    if t1.isUnsigned then
      if t2.isUnsigned then Cmp t1 t2 op d_buf v2.val else USCmp op d_buf v2.val
    else if t2.isUnsigned then SUCmp op d_buf v2.val
    else Cmp t1 t2 op d_buf v2.val
  | _ => .ok false

/-- `ops` of a numeric type. Not all of them look whether there is a second operand. -/
def numericOps (nullChecked : Bool) (notRead : String) (a : NumericVariable) (b : Option Operand) (op : RelOp) :
    Except Fault Bool :=
  match a.value with
  | none => .error (.InternalErr notRead)
  | some v1 =>
    match b with
    | none => .error (if nullChecked then .InternalErr notRead else .undefined)
    | some b => if b.readable then typeSwitch a.type v1.val op b else .error (.InternalErr notRead)

def Int8.ops := numericOps false "This value not read!"

def Byte.ops := numericOps true "This value not read!"

def Int16.ops := numericOps true "This value not read!"

def UInt16.ops := numericOps true "This value was not read!"

def Int32.ops := numericOps false "This value not read!"

def UInt32.ops := numericOps true "This value was not read!"

def Int64.ops := numericOps false "This value not read!"

def UInt64.ops := numericOps true "This value was not read!"

def Float32.ops := numericOps true "This value not read!"

def Float64.ops := numericOps false "This value not read!"

/-- The virtual `ops`. -/
def ops (a : NumericVariable) : Option Operand → RelOp → Except Fault Bool :=
  match a.type with
  | .int8 => Int8.ops a
  | .byte => Byte.ops a
  | .int16 => Int16.ops a
  | .uint16 => UInt16.ops a
  | .int32 => Int32.ops a
  | .uint32 => UInt32.ops a
  | .int64 => Int64.ops a
  | .uint64 => UInt64.ops a
  | .float32 => Float32.ops a
  | .float64 => Float64.ops a

/-- An operator between two variables that have values. -/
def compared {t1 t2 : NumType} (x : Value t1) (y : Value t2) (c : Comparison) : Except Fault Bool :=
  ops ⟨t1, some x⟩ (some (.numeric ⟨t2, some y⟩)) (.rel c)

/-- What a number counts for beside one of this type: a negative one for zero, if the type is unsigned. -/
def floored (t : NumType) (n : Int) : Int := if t.isUnsigned then max 0 n else n

/-- The operators follow the order of the integers. -/
structure Ordered {t1 t2 : NumType} (x : Value t1) (y : Value t2) : Prop where
  agrees : ∀ c, compared x y c = .ok (c.holds (floored t2 x.val) (floored t1 y.val))
  one : ∃! c, c ∈ [Comparison.less, .equal, .greater] ∧ compared x y c = .ok true
  flips : ∀ c, compared x y c = compared y x c.flip

/-- The first number keeps its place beside the second where it is converted: it is not rounded to it, and it is not
over the range of `unsigned long long`. -/
def Kept {t1 t2 : NumType} (x : Value t1) (y : Value t2) : Prop :=
  if t2.isUnsigned then x.val < 2 ^ 64
  else if t1.isUnsigned ∨ t1.significand.isSome then True
  else ∀ p ∈ t2.significand, roundInt p x.val = y.val → x.val = y.val

variable {t1 t2 : NumType}

theorem compared_eq (x : Value t1) (y : Value t2) (c : Comparison) :
    compared x y c = typeSwitch t1 x.val (.rel c) (.numeric ⟨t2, some y⟩) := by
  cases t1 <;> rfl

namespace NumType

variable {t : NumType} {n : Int} {p : Nat}

theorem significand_of_isUnsigned (h : t.isUnsigned = true) : t.significand = none := by
  cases t <;> first | rfl | cases h

theorem Holds.of_isUnsigned (hn : t.Holds n) (h : t.isUnsigned = true) : 0 ≤ n ∧ n < 2 ^ 64 := by
  have hBound : 0 ≤ n → ∀ m : Int, n < m → m ≤ 2 ^ 64 → 0 ≤ n ∧ n < 2 ^ 64 :=
    fun hLow m hm hHigh => ⟨hLow, lt_of_lt_of_le hm hHigh⟩
  cases t with
  | byte => exact hBound hn.1 _ hn.2 (by decide)
  | uint16 => exact hBound hn.1 _ hn.2 (by decide)
  | uint32 => exact hBound hn.1 _ hn.2 (by decide)
  | uint64 => exact hBound hn.1 _ hn.2 (by decide)
  | _ => cases h

theorem Holds.isFloat (hn : t.Holds n) (h : t.significand = some p) : IsFloat p n ∧ 0 < p := by
  cases t with
  | float32 =>
    cases h
    exact ⟨hn.1, by decide⟩
  | float64 =>
    cases h
    exact ⟨hn.1, by decide⟩
  | _ => cases h

end NumType

namespace Comparison

theorem holds_flip (c : Comparison) (a b : Int) : c.flip.holds b a = c.holds a b := by
  cases c with
  | equal => exact decide_eq_decide.mpr eq_comm
  | notEqual => exact decide_eq_decide.mpr ne_comm
  | greater => rfl
  | greaterEql => rfl
  | less => rfl
  | lessEql => rfl

/-- All operators say the same of two pairs that are in the same order. -/
theorem holds_eq_iff {a b a' b' : Int} :
    (∀ c : Comparison, c.holds a b = c.holds a' b') ↔ (a = b ↔ a' = b') ∧ (a < b ↔ a' < b') := by
  constructor
  · intro h
    exact ⟨decide_eq_decide.mp (h .equal), decide_eq_decide.mp (h .less)⟩
  · rintro ⟨hEqual, hLess⟩ c
    cases c with
    | equal => exact decide_eq_decide.mpr hEqual
    | notEqual => exact decide_eq_decide.mpr (not_congr hEqual)
    | greater => exact decide_eq_decide.mpr (by omega)
    | greaterEql => exact decide_eq_decide.mpr (by omega)
    | less => exact decide_eq_decide.mpr hLess
    | lessEql => exact decide_eq_decide.mpr (by omega)

theorem existsUnique_holds (a b : Int) : ∃! c, c ∈ [less, equal, greater] ∧ c.holds a b = true := by
  have hUnique : ∀ c ∈ [less, equal, greater], c.holds a b = true →
      (c = less ↔ a < b) ∧ (c = equal ↔ a = b) ∧ (c = greater ↔ a > b) := by
    intro c hc h
    simp only [List.mem_cons, List.not_mem_nil, or_false] at hc
    obtain rfl | rfl | rfl := hc
    all_goals
      have hHolds := of_decide_eq_true h
      refine ⟨?_, ?_, ?_⟩ <;> simp <;> omega
  obtain h | h | h := lt_trichotomy a b
  · exact ⟨less, ⟨by simp, decide_eq_true h⟩, fun c hc => (hUnique c hc.1 hc.2).1.mpr h⟩
  · exact ⟨equal, ⟨by simp, decide_eq_true h⟩, fun c hc => (hUnique c hc.1 hc.2).2.1.mpr h⟩
  · exact ⟨greater, ⟨by simp, decide_eq_true h⟩, fun c hc => (hUnique c hc.1 hc.2).2.2.mpr h⟩

theorem holds_round_iff {p : Nat} (hp : 0 < p) {a b : Int} (hb : IsFloat p b) :
    (∀ c : Comparison, c.holds (roundInt p a) b = c.holds a b) ↔ (roundInt p a = b → a = b) := by
  rw [holds_eq_iff]
  constructor
  · rintro ⟨hEqual, -⟩
    exact hEqual.mp
  · intro h
    obtain hLess | rfl | hMore := lt_trichotomy a b
    · have hLe := roundInt_le hp hb (le_of_lt hLess)
      omega
    · rw [roundInt_of_isFloat hb]
      exact ⟨Iff.rfl, Iff.rfl⟩
    · have hLe := le_roundInt hp hb (le_of_lt hMore)
      omega

theorem holds_round_right_iff {p : Nat} (hp : 0 < p) {a b : Int} (ha : IsFloat p a) :
    (∀ c : Comparison, c.holds a (roundInt p b) = c.holds a b) ↔ (roundInt p b = a → b = a) := by
  rw [← holds_round_iff hp ha]
  constructor
  · intro h c
    rw [← holds_flip, ← holds_flip c]
    exact h c.flip
  · intro h c
    rw [← holds_flip, ← holds_flip c]
    exact h c.flip

end Comparison

@[simp] theorem relation_rel_ok (c : Comparison) (a b : Int) :
    relation (.rel c) (.ok a) (.ok b) = .ok (c.holds a b) := rfl

theorem dapFloorZero_of_lt {i : Int} (h : i < 2 ^ 64) : dapFloorZero i = .ok (max 0 i) := by
  rw [dapFloorZero, if_pos h]
  split
  · rename_i hNegative
    rw [max_eq_left (le_of_lt hNegative)]
  · rename_i hPositive
    rw [max_eq_right (not_lt.mp hPositive)]

theorem dapFloorZero_of_ge {i : Int} (h : ¬ i < 2 ^ 64) : dapFloorZero i = .error .undefined := by
  rw [dapFloorZero, if_neg (by omega), if_neg h]

theorem agrees_unsigned_unsigned (x : Value t1) (y : Value t2) (h1 : t1.isUnsigned = true)
    (h2 : t2.isUnsigned = true) (c : Comparison) :
    compared x y c = .ok (c.holds (floored t2 x.val) (floored t1 y.val)) := by
  have hx := x.holds.of_isUnsigned h1
  have hy := y.holds.of_isUnsigned h2
  have hFloat : commonFloat t1 t2 = none := by
    rw [commonFloat, NumType.significand_of_isUnsigned h1, NumType.significand_of_isUnsigned h2]
  rw [compared_eq, typeSwitch, if_pos h1, if_pos h2, Cmp, hFloat, floored, if_pos h2, floored, if_pos h1,
    max_eq_right hx.1, max_eq_right hy.1]
  rfl

/-- A comparison with a number that is floored is one with the number or with zero, if it is in range. -/
theorem floored_agrees_iff {i : Int} (run : Comparison → Except Fault Int → Except Fault Bool)
    (tells : Comparison → Int → Bool) (hOk : ∀ c a, run c (.ok a) = .ok (tells c a))
    (hError : ∀ c f, run c (.error f) = .error f) :
    (∀ c, run c (dapFloorZero i) = .ok (tells c (max 0 i))) ↔ i < 2 ^ 64 := by
  constructor
  · intro h
    by_contra hMore
    have hEqual := h .equal
    rw [dapFloorZero_of_ge hMore, hError] at hEqual
    cases hEqual
  · intro h c
    rw [dapFloorZero_of_lt h, hOk]

theorem agrees_unsigned_signed (x : Value t1) (y : Value t2) (h1 : t1.isUnsigned = true)
    (h2 : t2.isUnsigned = false) :
    (∀ c, compared x y c = .ok (c.holds (floored t2 x.val) (floored t1 y.val))) ↔ y.val < 2 ^ 64 := by
  have hRun : ∀ c, compared x y c = relation (.rel c) (.ok x.val) (dapFloorZero y.val) := by
    intro c
    rw [compared_eq, typeSwitch, if_pos h1, h2, if_neg (by decide), USCmp]
  simp only [hRun, floored, h1, h2, if_true, Bool.false_eq_true, if_false]
  exact floored_agrees_iff (fun c r => relation (.rel c) (.ok x.val) r) (fun c b => c.holds x.val b)
    (fun _ _ => rfl) fun _ _ => rfl

theorem agrees_signed_unsigned (x : Value t1) (y : Value t2) (h1 : t1.isUnsigned = false)
    (h2 : t2.isUnsigned = true) :
    (∀ c, compared x y c = .ok (c.holds (floored t2 x.val) (floored t1 y.val))) ↔ x.val < 2 ^ 64 := by
  have hRun : ∀ c, compared x y c = relation (.rel c) (dapFloorZero x.val) (.ok y.val) := by
    intro c
    rw [compared_eq, typeSwitch, h1, if_neg (by decide), if_pos h2, SUCmp]
  simp only [hRun, floored, h1, h2, if_true, Bool.false_eq_true, if_false]
  exact floored_agrees_iff (fun c r => relation (.rel c) r (.ok y.val)) (fun c a => c.holds a y.val)
    (fun _ _ => rfl) fun _ _ => rfl

theorem agrees_signed_signed (x : Value t1) (y : Value t2) (h1 : t1.isUnsigned = false)
    (h2 : t2.isUnsigned = false) :
    (∀ c, compared x y c = .ok (c.holds (floored t2 x.val) (floored t1 y.val))) ↔
      ∀ c : Comparison, c.holds (converted (commonFloat t1 t2) x.val) (converted (commonFloat t1 t2) y.val) =
        c.holds x.val y.val := by
  apply forall_congr'
  intro c
  rw [compared_eq, typeSwitch, h1, if_neg (by decide), h2, if_neg (by decide), Cmp, relation_rel_ok, floored, h2,
    if_neg (by decide), floored, h1, if_neg (by decide), Except.ok.injEq]

/-- The operators follow the order of the integers if and only if both numbers keep their places. -/
theorem agrees_iff (x : Value t1) (y : Value t2) :
    (∀ c, compared x y c = .ok (c.holds (floored t2 x.val) (floored t1 y.val))) ↔ Kept x y ∧ Kept y x := by
  rw [Kept, Kept]
  cases h1 : t1.isUnsigned with
  | true =>
    have hx := x.holds.of_isUnsigned h1
    cases h2 : t2.isUnsigned with
    | true =>
      have hy := y.holds.of_isUnsigned h2
      exact ⟨fun _ => ⟨hx.2, hy.2⟩, fun _ => agrees_unsigned_unsigned x y h1 h2⟩
    | false =>
      rw [agrees_unsigned_signed x y h1 h2]
      simp
  | false =>
    cases h2 : t2.isUnsigned with
    | true =>
      rw [agrees_signed_unsigned x y h1 h2]
      simp
    | false =>
      rw [agrees_signed_signed x y h1 h2, commonFloat]
      cases hp : t1.significand with
      | none =>
        cases hq : t2.significand with
        | none => simp [converted]
        | some q =>
          obtain ⟨hy, hPos⟩ := y.holds.isFloat hq
          simp only [converted, Option.elim_some, roundInt_of_isFloat hy, Comparison.holds_round_iff hPos hy]
          simp
      | some p =>
        obtain ⟨hx, hPos⟩ := x.holds.isFloat hp
        cases hq : t2.significand with
        | none =>
          simp only [converted, Option.elim_some, roundInt_of_isFloat hx, Comparison.holds_round_right_iff hPos hx]
          simp
        | some q =>
          obtain ⟨hy, -⟩ := y.holds.isFloat hq
          have hLeft := roundInt_of_isFloat (hx.mono (Nat.le_max_left p q))
          have hRight := roundInt_of_isFloat (hy.mono (Nat.le_max_right p q))
          simp [converted, hLeft, hRight]

theorem ordered_iff (x : Value t1) (y : Value t2) : Ordered x y ↔ Kept x y ∧ Kept y x := by
  constructor
  · intro h
    exact (agrees_iff x y).mp h.agrees
  · intro h
    have hAgrees := (agrees_iff x y).mpr h
    have hBack := (agrees_iff y x).mpr ⟨h.2, h.1⟩
    refine ⟨hAgrees, ?_, ?_⟩
    · simpa only [hAgrees, Except.ok.injEq] using Comparison.existsUnique_holds _ _
    · intro c
      rw [hAgrees, hBack, Comparison.holds_flip]

/-- Int32 16777217 is rounded to Float32 16777216. -/
def int32Value : Value .int32 := ⟨16777217, by decide, by decide⟩

def float32Value : Value .float32 := ⟨16777216, ⟨1, 24, by decide, by decide⟩, by decide⟩

theorem rounded_operand_equal : compared int32Value float32Value .equal = .ok true ∧
    ¬ Ordered int32Value float32Value := by
  have hEqual : compared int32Value float32Value .equal = .ok true := by decide
  refine ⟨hEqual, fun h => ?_⟩
  rw [h.agrees] at hEqual
  revert hEqual
  decide

end Libdap.Operators
