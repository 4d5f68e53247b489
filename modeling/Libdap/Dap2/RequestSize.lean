import Libdap.Dap2.Array

/-! # The size of a response

The size of the data that a constraint selects is added up in `unsigned int`s and an `int`, which keep
what it leaves over after the division by 2^32.
-/

namespace Libdap.Dap2
open Core
set_option autoImplicit false

inductive Numeric
  | byte
  | int16
  | uint16
  | int32
  | uint32
  | float32
  | float64
  deriving DecidableEq, Repr

def Numeric.width : Numeric → Nat
  | byte => 1
  | int16 => 2
  | uint16 => 2
  | int32 => 4
  | uint32 => 4
  | float32 => 4
  | float64 => 8

/-- An array with dimensions, whose length was set for them. -/
structure Shaped where
  array : Array
  dims : array.shape ≠ []
  length_eq : array.updateLength = array

def Shaped.setSendP (state : Bool) (a : Shaped) : Shaped where
  array := { a.array with sendP := state }
  dims := a.dims
  length_eq := by
    have h := congrArg Array.length a.length_eq
    rw [Array.updateLength] at h ⊢
    exact congrArg (fun length => { a.array with length := length, sendP := state }) h

/-- A variable whose values have a fixed size. -/
inductive FixedVariable
  | simple (type : Numeric) (sendP : Bool)
  | array (a : Shaped) (element : FixedVariable)
  | struct (sendP : Bool) (vars : List FixedVariable)
  | grid (sendP : Bool) (arrayVar : FixedVariable) (mapVars : List FixedVariable)

namespace FixedVariable

def sendP : FixedVariable → Bool
  | simple _ s => s
  | array a _ => a.array.sendP
  | struct s _ => s
  | grid s _ _ => s

mutual

def setSendP (state : Bool) : FixedVariable → FixedVariable
  | .simple type _ => .simple type state
  | .array a element => .array (a.setSendP state) (setSendP state element)
  | .struct _ vars => .struct state (setSendPs state vars)
  | .grid _ arrayVar mapVars => .grid state (setSendP state arrayVar) (setSendPs state mapVars)

def setSendPs (state : Bool) : List FixedVariable → List FixedVariable
  | [] => []
  | v :: vs => setSendP state v :: setSendPs state vs

end

/-- The number of elements that `Array::width` counts. -/
def elements (constrained : Bool) (a : Array) : Int :=
  if constrained then a.length else a.shape.foldl (fun length d => int32 (length * d.size)) 1

mutual

/-- `width (constrained)` -/
def width (constrained : Bool) : FixedVariable → Nat
  | .simple type _ => type.width
  | .array a element => uint32 (elements constrained a.array * width constrained element)
  | .struct _ vars => addWidths constrained 0 vars
  | .grid _ arrayVar mapVars =>
    addWidths constrained (if !constrained || arrayVar.sendP then width constrained arrayVar else 0) mapVars

/-- `sz += (*i)->width(constrained)` for those that are counted. -/
def addWidths (constrained : Bool) : Nat → List FixedVariable → Nat
  | sz, [] => sz
  | sz, v :: vs =>
    addWidths constrained
      (if !constrained || v.sendP then (sz + width constrained v) % 4294967296 else sz) vs

end

/-- `DDS::get_request_size` -/
def getRequestSize (constrained : Bool) (vars : List FixedVariable) : Int :=
  vars.foldl (fun w v => if !constrained || v.sendP then int32 (w + width constrained v) else w) 0

mutual

/-- The bytes of the projected data, with the number of the elements along each dimension. -/
def bytes (count : Dimension → Nat) : FixedVariable → Nat
  | .simple type _ => type.width
  | .array a element => (a.array.shape.map count).prod * bytes count element
  | .struct _ vars => projectedBytes count vars
  | .grid _ arrayVar mapVars =>
    (if arrayVar.sendP then bytes count arrayVar else 0) + projectedBytes count mapVars

def projectedBytes (count : Dimension → Nat) : List FixedVariable → Nat
  | [] => 0
  | v :: vs => (if v.sendP then bytes count v else 0) + projectedBytes count vs

end

end FixedVariable

/-- The constrained size of a dimension. -/
def exactCount (d : Dimension) : Nat := d.cSize.toNat

/-- The same, but one for an empty dimension. -/
def countedAs (d : Dimension) : Nat := if d.cSize > 0 then d.cSize.toNat else 1

/-! ## What is left over -/

theorem int32_int32_mul (m n : Int) : int32 (int32 m * n) = int32 (m * n) := by
  have hSame : (int32 m * n + 2147483648) % 4294967296 = (m * n + 2147483648) % 4294967296 := by
    have hOver : int32 m = m - 4294967296 * ((m + 2147483648) / 4294967296) := by
      rw [int32]
      omega
    rw [hOver, Int.sub_mul, Int.mul_assoc]
    omega
  rw [int32, hSame, ← int32]

theorem int32_add_mod (m : Int) (n : Nat) : int32 (int32 m + (n % 4294967296 : Nat)) = int32 (m + n) := by
  simp only [int32]
  omega

theorem uint32_int32_mul (m : Int) (n : Nat) : uint32 (int32 m * (n % 4294967296 : Nat)) = uint32 (m * n) := by
  have hSame : (int32 m * ((n % 4294967296 : Nat) : Int)) % 4294967296 = (m * n) % 4294967296 := by
    have hOver : int32 m % 4294967296 = m % 4294967296 := by
      rw [int32]
      omega
    have hWidth : ((n % 4294967296 : Nat) : Int) % 4294967296 = n % 4294967296 := by omega
    rw [Int.mul_emod, hOver, hWidth, ← Int.mul_emod]
  rw [uint32, hSame, ← uint32]

theorem factor_eq (d : Dimension) : Array.factor d = countedAs d := by
  rw [Array.factor, countedAs]
  split
  · rename_i hPositive
    rw [Int.toNat_of_nonneg (Int.le_of_lt hPositive)]
  · rfl

/-- The length is what the product of the dimensions leaves over. -/
theorem length_fold (ds : List Dimension) (m : Nat) :
    ds.foldl (fun length d => int32 (length * Array.factor d)) (int32 m) =
      int32 ((m * (ds.map countedAs).prod : Nat) : Int) := by
  induction ds generalizing m with
  | nil => rw [List.foldl_nil, List.map_nil, List.prod_nil, Nat.mul_one]
  | cons d ds ih =>
    rw [List.foldl_cons, int32_int32_mul, factor_eq, ← Int.natCast_mul, ih, List.map_cons, List.prod_cons,
      Nat.mul_assoc]

theorem shaped_length (a : Shaped) : a.array.length = int32 ((a.array.shape.map countedAs).prod : Nat) := by
  have hLength := congrArg Array.length a.length_eq
  have hFold := length_fold a.array.shape 1
  have hOne : int32 ((1 : Nat) : Int) = 1 := by decide
  rw [hOne, Nat.one_mul] at hFold
  rw [← hLength, Array.updateLength]
  exact hFold

mutual

theorem width_eq : ∀ v : FixedVariable, v.width true = v.bytes countedAs % 4294967296
  | .simple type _ => by
    rw [FixedVariable.width, FixedVariable.bytes]
    cases type <;> rfl
  | .array a element => by
    rw [FixedVariable.width, FixedVariable.bytes, FixedVariable.elements, if_pos rfl, width_eq element, shaped_length,
      uint32_int32_mul, ← Int.natCast_mul, uint32_natCast]
  | .struct _ vars => by
    rw [FixedVariable.width, FixedVariable.bytes]
    exact (addWidths_eq vars 0).trans (by rw [Nat.zero_add])
  | .grid _ arrayVar mapVars => by
    have hArray : (if !true || arrayVar.sendP then arrayVar.width true else 0) =
        (if arrayVar.sendP then arrayVar.bytes countedAs else 0) % 4294967296 := by
      rw [width_eq arrayVar, Bool.not_true, Bool.false_or]
      split <;> rfl
    rw [FixedVariable.width, FixedVariable.bytes, hArray]
    exact addWidths_eq mapVars _

theorem addWidths_eq : ∀ (vars : List FixedVariable) (sz : Nat),
    FixedVariable.addWidths true (sz % 4294967296) vars =
      (sz + FixedVariable.projectedBytes countedAs vars) % 4294967296
  | [], sz => by
    rw [FixedVariable.addWidths, FixedVariable.projectedBytes, Nat.add_zero]
  | v :: vs, sz => by
    have hNext : (if !true || v.sendP then (sz % 4294967296 + v.width true) % 4294967296 else sz % 4294967296) =
        (sz + if v.sendP then v.bytes countedAs else 0) % 4294967296 := by
      rw [width_eq v, Bool.not_true, Bool.false_or]
      split
      · rw [← Nat.add_mod]
      · rw [Nat.add_zero]
    rw [FixedVariable.addWidths, FixedVariable.projectedBytes, hNext, addWidths_eq vs, Nat.add_assoc]

end

/-- What the exact size leaves over, an empty dimension counted as one. -/
theorem getRequestSize_eq (vars : List FixedVariable) :
    FixedVariable.getRequestSize true vars = int32 (FixedVariable.projectedBytes countedAs vars) := by
  have hFrom : ∀ (vars : List FixedVariable) (w : Nat),
      vars.foldl (fun (w : Int) v => if !true || v.sendP then int32 (w + v.width true) else w) (int32 w) =
        int32 ((w + FixedVariable.projectedBytes countedAs vars : Nat) : Int) := by
    intro vars
    induction vars with
    | nil =>
      intro w
      rw [List.foldl_nil, FixedVariable.projectedBytes, Nat.add_zero]
    | cons v vs ih =>
      intro w
      have hNext : (if !true || v.sendP then int32 (int32 (w : Int) + (v.width true : Int)) else int32 w) =
          int32 ((w + (if v.sendP then v.bytes countedAs else 0) : Nat) : Int) := by
        rw [width_eq v, int32_add_mod, Bool.not_true, Bool.false_or]
        split
        · rw [Int.natCast_add]
        · rw [Nat.add_zero]
      rw [List.foldl_cons, FixedVariable.projectedBytes, hNext, ih, Nat.add_assoc]
  have hZero : int32 ((0 : Nat) : Int) = 0 := by decide
  have hAll := hFrom vars 0
  rwa [hZero, Nat.zero_add] at hAll

end Libdap.Dap2
