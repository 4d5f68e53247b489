import Mathlib.Data.Int.ModEq
import Mathlib.Data.List.Forall2
import Libdap.Dap2.ArrayLength
import Libdap.Ddx.BaseType
import Libdap.Functions.ShapeExpression
import Libdap.Http.Decimal

/-! # Arrays made from a shape and values

`make_array` is given the name of an element type, a shape and as many values as the shape has elements. The values are
constants of the expression; what they are read as follows from the element type, not from the constant.
-/

namespace Libdap.Functions
open Core Constraint Http
open Ddx (DodsType getType isSimpleType)
set_option autoImplicit false

/-- What `make_variable` makes of an argument that is a constant. -/
inductive Constant (F64 : Type)
  | int32 (v : {v : Int // InInt v})
  | uint32 (v : {v : Nat // v ≤ UINT_MAX})
  | float64 (v : F64)
  | str (v : Word)

inductive Element (F32 F64 : Type)
  | int (v : Int)
  | float32 (v : F32)
  | float64 (v : F64)
  | text (v : Word)
  deriving DecidableEq, Repr

structure MadeArray (F32 F64 : Type) where
  array : Dap2.Array
  type : DodsType
  values : List (Element F32 F64)
  readP : Bool

inductive Response (F32 F64 : Type)
  | info (text : String)
  | array (made : MadeArray F32 F64)

def info : String :=
  "<?xml version=\"1.0\" encoding=\"UTF-8\"?>\n" ++
    "<function name=\"make_array\" version=\"1.0\" href=\"http://docs.opendap.org/index.php/" ++
    "Server_Side_Processing_Functions#make_array\">\n" ++ "</function>"

/-- Conversion to `unsigned long`. -/
def ulong (n : Int) : Nat := (n % 18446744073709551616).toNat

/-- Conversion of an `unsigned long` to `long`. -/
def long (n : Nat) : Int := if n < 9223372036854775808 then n else n - 18446744073709551616

section
variable {F32 F64 : Type} (narrow : F64 → F32)

def extractStringArgument : Constant F64 → Except Fault Word
  | .str s => .ok s
  | _ => .error (.Error "The function requires a DAP string argument.")

/-! The casts, which are not checked. -/

def asInt32 : Constant F64 → Except Fault Int
  | .int32 v => .ok v
  | _ => .error .undefined

def asFloat64 : Constant F64 → Except Fault F64
  | .float64 v => .ok v
  | _ => .error .undefined

def asStr : Constant F64 → Except Fault Word
  | .str v => .ok v
  | _ => .error .undefined

/-- No constant is an object of class `Url`. -/
def asUrl : Constant F64 → Except Fault Word := fun _ => .error .undefined

def readValues {α : Type} (cast : Constant F64 → Except Fault α) (convert : α → Element F32 F64) :
    List (Constant F64) → Except Fault (List (Element F32 F64))
  | [] => .ok []
  | v :: values => do
    let first ← cast v
    let rest ← readValues cast convert values
    .ok (convert first :: rest)

def readElements (type : DodsType) : List (Constant F64) → Except Fault (List (Element F32 F64)) :=
  match type with
  | .byte => readValues asInt32 fun v => .int (v % 256)
  | .int16 => readValues asInt32 fun v => .int ((v + 32768) % 65536 - 32768)
  | .uint16 => readValues asInt32 fun v => .int (v % 65536)
  | .int32 => readValues asInt32 .int
  | .uint32 => readValues asInt32 fun v => .int (v % 4294967296)
  | .float32 => readValues asFloat64 fun v => .float32 (narrow v)
  | .float64 => readValues asFloat64 .float64
  | .str => readValues asStr .text
  | .url => readValues asUrl .text
  | _ => fun _ => .error (.InternalErr "Unknown type error")

/-- The types that the factory and the readers of the values both know. -/
def elementTypes : List DodsType :=
  [.byte, .int16, .uint16, .int32, .uint32, .float32, .float64, .str, .url]

/-- `BaseTypeFactory::NewVariable` for a simple type. -/
def newVariable (type : DodsType) : Except Fault Unit :=
  if type ∈ elementTypes then .ok () else .error (.InternalErr "Unknow type")

def nameOf (counter : Nat) : Word := 'g' :: decimal counter

/-- The search for a name, which is over after as many rounds as there are variables. -/
def findName (dds : List Word) : Nat → Nat → Word × Nat
  | 0, counter => (nameOf counter, counter + 1)
  | n + 1, counter =>
    if dds.contains (nameOf counter) then findName dds n (counter + 1) else (nameOf counter, counter + 1)

/-- The counter is kept from call to call. -/
def newName (dds : List Word) : Call Nat Word := fun counter =>
  let found := findName dds dds.length counter
  .ok found.1 found.2

/-- Without values the numbers have no address, and nothing is set. -/
def setValue (type : DodsType) (values : List (Element F32 F64)) (array : Dap2.Array) : Dap2.Array :=
  if values = [] ∧ type ≠ .str ∧ type ≠ .url then array else { array with length := int32 values.length }

def countError (numberOfElements count : Nat) : Fault :=
  .Error (String.ofList ("make_array(): Expected ".toList ++ integer (long numberOfElements) ++ " but found ".toList ++
    decimal count ++ " instead.".toList))

variable (unset : Word) (dds : List Word)

def functionMakeArray : List (Constant F64) → Call Nat (Response F32 F64)
  | [] => pure (.info info)
  | [_] => throw (.Error "make_array(type,shape,[value0,...]) requires at least two arguments.")
  | arg0 :: arg1 :: values => do
    let typeName ← Call.ofExcept (extractStringArgument arg0)
    let shape ← Call.ofExcept (extractStringArgument arg1)
    let type := getType (String.ofList (cString typeName))
    if isSimpleType type = false then
      throw (.Error "make_array() can only build arrays of simple types (integers, floats and strings).")
    else do
      let dims ← Call.ofExcept (parseDims shape)
      let name ← newName dds
      Call.ofExcept (newVariable type)
      let dest := dims.foldl (fun dest size => dest.appendDim unset size []) (Dap2.Array.new unset name .null)
      let numberOfElements := dims.foldl (fun (n : Nat) (size : Int) => ulong (n * size)) 1
      if ulong (numberOfElements + 2) ≠ ulong (values.length + 2) then throw (countError numberOfElements values.length)
      else do
        let elements ← Call.ofExcept (readElements narrow type values)
        pure (.array ⟨{ setValue type elements dest with sendP := true }, type, elements, true⟩)

end

/-! ## What the result should be -/

section
variable {F32 F64 : Type} (widen : F32 → F64)

/-- The element is the value of the constant. -/
def Represents : Constant F64 → Element F32 F64 → Prop
  | .int32 v, .int w => w = v
  | .float64 x, .float32 y => widen y = x
  | .float64 x, .float64 y => y = x
  | .str s, .text t => t = s
  | _, _ => False

/-- The constant has the type that the values are read as. -/
def Required : DodsType → Constant F64 → Prop
  | .float32, .float64 _ => True
  | .float64, .float64 _ => True
  | .str, .str _ => True
  | .byte, .int32 _ => True
  | .int16, .int32 _ => True
  | .uint16, .int32 _ => True
  | .int32, .int32 _ => True
  | .uint32, .int32 _ => True
  | _, _ => False

def sizesOf (made : MadeArray F32 F64) : List Int := made.array.shape.map Dap2.Dimension.size

structure AsWritten (shape : Word) (values : List (Constant F64)) (made : MadeArray F32 F64) : Prop where
  sizes : Written shape (sizesOf made)
  positive : ∀ size ∈ sizesOf made, 1 ≤ size
  product : (sizesOf made).prod = values.length
  values : List.Forall₂ (Represents widen) values made.values

/-- It throws, or makes the array of values that have the required type. -/
def MakesArray (run : EStateM.Result Fault Nat (Response F32 F64)) (type : DodsType) (shape : Word)
    (values : List (Constant F64)) : Prop :=
  match run with
  | .error e _ => ∃ msg, e = .Error msg ∨ e = .InternalErr msg
  | .ok response _ =>
    ∃ made, response = .array made ∧ AsWritten widen shape values made ∧ ∀ v ∈ values, Required type v

/-- The constant has the required type, and a value of the element type. -/
def Fits (narrow : F64 → F32) : DodsType → Constant F64 → Prop
  | .byte, .int32 v => 0 ≤ v.1 ∧ v.1 ≤ 255
  | .int16, .int32 v => -32768 ≤ v.1 ∧ v.1 ≤ 32767
  | .uint16, .int32 v => 0 ≤ v.1 ∧ v.1 ≤ 65535
  | .int32, .int32 _ => True
  | .uint32, .int32 v => 0 ≤ v.1
  | .float32, .float64 x => widen (narrow x) = x
  | .float64, .float64 _ => True
  | .str, .str _ => True
  | _, _ => False

variable {widen} {narrow : F64 → F32} {type : DodsType} {values : List (Constant F64)}

/-! ## Values -/

theorem readValues_ok {α : Type} {cast : Constant F64 → Except Fault α} {convert : α → Element F32 F64}
    {P : Constant F64 → Prop} {R : Constant F64 → Element F32 F64 → Prop}
    (h : ∀ v, P v ↔ ∃ x, cast v = .ok x ∧ R v (convert x)) (values : List (Constant F64)) :
    (∀ v ∈ values, P v) ↔ ∃ elements, readValues cast convert values = .ok elements ∧
      List.Forall₂ R values elements := by
  induction values with
  | nil => exact iff_of_true (fun _ hv => absurd hv List.not_mem_nil) ⟨[], rfl, .nil⟩
  | cons v values ih =>
    rw [List.forall_mem_cons, h, ih]
    constructor
    · rintro ⟨⟨x, hCast, hFirst⟩, elements, hRead, hRest⟩
      refine ⟨convert x :: elements, ?_, .cons hFirst hRest⟩
      rw [readValues, hCast, ok_bind, hRead]
      rfl
    · rintro ⟨elements, hRead, hAll⟩
      rw [readValues] at hRead
      obtain ⟨x, hCast, hRead⟩ := bind_eq_ok hRead
      obtain ⟨rest, hRest, hElements⟩ := bind_eq_ok hRead
      cases hElements
      obtain ⟨hFirst, hBehind⟩ := List.forall₂_cons.mp hAll
      exact ⟨⟨x, hCast, hFirst⟩, rest, hRest, hBehind⟩

theorem readValues_error {α : Type} {cast : Constant F64 → Except Fault α} {convert : α → Element F32 F64}
    (h : ∀ v e, cast v = .error e → e = .undefined) {values : List (Constant F64)} {e : Fault}
    (hRead : readValues cast convert values = .error e) : e = .undefined := by
  induction values with
  | nil => cases hRead
  | cons v values ih =>
    rw [readValues] at hRead
    rcases bind_eq_error hRead with hFirst | ⟨x, -, hRead⟩
    · exact h v e hFirst
    · rcases bind_eq_error hRead with hRest | ⟨rest, -, hNone⟩
      · exact ih hRest
      · cases hNone

theorem asInt32_error (v : Constant F64) (e : Fault) (h : asInt32 v = .error e) : e = .undefined := by
  cases v <;> cases h <;> rfl

theorem asFloat64_error (v : Constant F64) (e : Fault) (h : asFloat64 v = .error e) : e = .undefined := by
  cases v <;> cases h <;> rfl

theorem asStr_error (v : Constant F64) (e : Fault) (h : asStr v = .error e) : e = .undefined := by
  cases v <;> cases h <;> rfl

/-- A cast to the wrong class is the only thing that can go wrong. -/
theorem readElements_error (hType : type ∈ elementTypes) {e : Fault}
    (h : readElements narrow type values = .error e) : e = .undefined := by
  cases type
  case byte => exact readValues_error asInt32_error h
  case int16 => exact readValues_error asInt32_error h
  case uint16 => exact readValues_error asInt32_error h
  case int32 => exact readValues_error asInt32_error h
  case uint32 => exact readValues_error asInt32_error h
  case float32 => exact readValues_error asFloat64_error h
  case float64 => exact readValues_error asFloat64_error h
  case str => exact readValues_error asStr_error h
  case url => exact readValues_error (fun v e hCast => (Except.error.inj hCast).symm) h
  all_goals exact absurd hType (by decide)

theorem asInt32_iff (convert : Int → Int) {P Q : Constant F64 → Prop}
    (hInt : ∀ n, P (.int32 n) ↔ convert n.1 = n.1) (hUInt : ∀ n, ¬ P (.uint32 n)) (hFloat : ∀ x, ¬ P (.float64 x))
    (hStr : ∀ s, ¬ P (.str s)) (hQ : ∀ n, Q (.int32 n)) (v : Constant F64) :
    P v ↔ ∃ x, asInt32 v = .ok x ∧ Q v ∧ Represents widen v (.int (convert x)) := by
  cases v with
  | int32 n =>
    rw [hInt]
    constructor
    · intro h
      exact ⟨n, rfl, hQ n, h⟩
    · rintro ⟨x, hCast, -, h⟩
      cases hCast
      exact h
  | uint32 n => exact iff_of_false (hUInt n) fun ⟨_, hCast, _⟩ => by cases hCast
  | float64 x => exact iff_of_false (hFloat x) fun ⟨_, hCast, _⟩ => by cases hCast
  | str s => exact iff_of_false (hStr s) fun ⟨_, hCast, _⟩ => by cases hCast

theorem asFloat64_iff (convert : F64 → Element F32 F64) {P Q : Constant F64 → Prop}
    (hFloat : ∀ x, P (.float64 x) ↔ Represents widen (.float64 x) (convert x)) (hInt : ∀ n, ¬ P (.int32 n))
    (hUInt : ∀ n, ¬ P (.uint32 n)) (hStr : ∀ s, ¬ P (.str s)) (hQ : ∀ x, Q (.float64 x)) (v : Constant F64) :
    P v ↔ ∃ x, asFloat64 v = .ok x ∧ Q v ∧ Represents widen v (convert x) := by
  cases v with
  | float64 x =>
    rw [hFloat]
    constructor
    · intro h
      exact ⟨x, rfl, hQ x, h⟩
    · rintro ⟨y, hCast, -, h⟩
      cases hCast
      exact h
  | int32 n => exact iff_of_false (hInt n) fun ⟨_, hCast, _⟩ => by cases hCast
  | uint32 n => exact iff_of_false (hUInt n) fun ⟨_, hCast, _⟩ => by cases hCast
  | str s => exact iff_of_false (hStr s) fun ⟨_, hCast, _⟩ => by cases hCast

theorem asStr_iff (v : Constant F64) : Fits widen narrow .str v ↔
    ∃ x, asStr v = .ok x ∧ Required .str v ∧ Represents widen v (.text x) := by
  cases v with
  | str s => exact iff_of_true trivial ⟨s, rfl, trivial, rfl⟩
  | float64 x => exact iff_of_false id fun ⟨_, hCast, _⟩ => by cases hCast
  | int32 n => exact iff_of_false id fun ⟨_, hCast, _⟩ => by cases hCast
  | uint32 n => exact iff_of_false id fun ⟨_, hCast, _⟩ => by cases hCast

/-- The values that fit are read as what they are, and no others. -/
theorem fits_iff (hType : type ∈ elementTypes) (values : List (Constant F64)) :
    (∀ v ∈ values, Fits widen narrow type v) ↔ ∃ elements, readElements narrow type values = .ok elements ∧
      List.Forall₂ (fun v e => Required type v ∧ Represents widen v e) values elements := by
  cases type
  case byte =>
    refine readValues_ok (asInt32_iff (· % 256) (fun n => ?_) (fun _ => id) (fun _ => id)
      (fun _ => id) fun _ => trivial) _
    change 0 ≤ n.1 ∧ n.1 ≤ 255 ↔ n.1 % 256 = n.1
    omega
  case int16 =>
    refine readValues_ok (asInt32_iff (fun v => (v + 32768) % 65536 - 32768) (fun n => ?_) (fun _ => id) (fun _ => id)
      (fun _ => id) fun _ => trivial) _
    change -32768 ≤ n.1 ∧ n.1 ≤ 32767 ↔ (n.1 + 32768) % 65536 - 32768 = n.1
    omega
  case uint16 =>
    refine readValues_ok (asInt32_iff (· % 65536) (fun n => ?_) (fun _ => id) (fun _ => id) (fun _ => id)
      fun _ => trivial) _
    change 0 ≤ n.1 ∧ n.1 ≤ 65535 ↔ n.1 % 65536 = n.1
    omega
  case int32 =>
    exact readValues_ok (asInt32_iff id (fun _ => iff_of_true trivial rfl) (fun _ => id) (fun _ => id) (fun _ => id)
      fun _ => trivial) _
  case uint32 =>
    refine readValues_ok (asInt32_iff (· % 4294967296) (fun n => ?_) (fun _ => id) (fun _ => id) (fun _ => id)
      fun _ => trivial) _
    obtain ⟨-, hHigh⟩ := n.2
    change 0 ≤ n.1 ↔ n.1 % 4294967296 = n.1
    rw [INT_MAX] at hHigh
    omega
  case float32 =>
    exact readValues_ok (asFloat64_iff (fun v => .float32 (narrow v)) (fun _ => Iff.rfl) (fun _ => id) (fun _ => id)
      (fun _ => id) fun _ => trivial) _
  case float64 =>
    exact readValues_ok (asFloat64_iff .float64 (fun _ => iff_of_true trivial rfl) (fun _ => id) (fun _ => id)
      (fun _ => id) fun _ => trivial) _
  case str => exact readValues_ok asStr_iff _
  case url =>
    refine readValues_ok (fun v => iff_of_false ?_ ?_) _
    · cases v <;> exact id
    · rintro ⟨_, hCast, _⟩
      cases hCast
  all_goals exact absurd hType (by decide)

/-! ## Sizes -/

theorem ulong_cast (n : Int) : ((ulong n : Nat) : Int) = n % 18446744073709551616 :=
  Int.toNat_of_nonneg (Int.emod_nonneg n (by decide))

theorem numberOfElements_eq (dims : List Int) (n : Nat) :
    ((dims.foldl (fun (n : Nat) (size : Int) => ulong (n * size)) n : Nat) : Int) ≡ n * dims.prod
      [ZMOD 18446744073709551616] := by
  induction dims generalizing n with
  | nil => rw [List.foldl_nil, List.prod_nil, mul_one]
  | cons size dims ih =>
    rw [List.foldl_cons, List.prod_cons, ← mul_assoc]
    refine (ih _).trans (Int.ModEq.mul_right _ ?_)
    rw [ulong_cast]
    exact Int.mod_modEq _ _

theorem count_iff (dims : List Int) (count : Nat) :
    ulong ((dims.foldl (fun (n : Nat) (size : Int) => ulong (n * size)) 1 : Nat) + 2) = ulong (count + 2) ↔
      dims.prod ≡ count [ZMOD 18446744073709551616] := by
  have hProd := numberOfElements_eq dims 1
  rw [Nat.cast_one, one_mul] at hProd
  rw [← Int.natCast_inj, ulong_cast, ulong_cast]
  constructor
  · intro h
    exact hProd.symm.trans (Int.ModEq.add_right_cancel' 2 h)
  · intro h
    exact (hProd.trans h).add_right 2

theorem append_sizes (unset : Word) (dims : List Int) (a : Dap2.Array) :
    (dims.foldl (fun dest size => dest.appendDim unset size []) a).shape.map Dap2.Dimension.size =
      a.shape.map Dap2.Dimension.size ++ dims := by
  induction dims generalizing a with
  | nil => exact (List.append_nil _).symm
  | cons size dims ih =>
    rw [List.foldl_cons, ih]
    have hShape : (a.appendDim unset size []).shape.map Dap2.Dimension.size = a.shape.map Dap2.Dimension.size ++
        [size] := by
      rw [Dap2.Array.appendDim, Dap2.Array.updateLength, List.map_append]
      rfl
    rw [hShape, List.append_assoc]
    rfl

theorem setValue_shape (type : DodsType) (values : List (Element F32 F64)) (a : Dap2.Array) :
    (setValue type values a).shape = a.shape := by
  rw [setValue]
  split <;> rfl

end

/-! ## The name -/

theorem nameOf_injective {k l : Nat} (h : nameOf k = nameOf l) : k = l := by
  have hValue := congrArg (valueOf 10) (List.cons.inj h).2
  rw [valueOf_decimal, valueOf_decimal] at hValue
  exact hValue

theorem findName_succ (dds : List Word) (n counter : Nat) :
    findName dds (n + 1) counter =
      if nameOf counter ∈ dds then findName dds n (counter + 1) else (nameOf counter, counter + 1) := by
  rw [findName]
  simp only [List.contains_iff_mem]

theorem findName_eq (dds : List Word) (n counter : Nat) : ∃ k, counter ≤ k ∧ (findName dds n counter).1 = nameOf k := by
  induction n generalizing counter with
  | zero => exact ⟨counter, Nat.le_refl _, rfl⟩
  | succ n ih =>
    rw [findName_succ]
    split
    · obtain ⟨k, hLess, hName⟩ := ih (counter + 1)
      exact ⟨k, Nat.le_of_succ_le hLess, hName⟩
    · exact ⟨counter, Nat.le_refl _, rfl⟩

theorem findName_congr {dds dds' : List Word} {counter : Nat}
    (h : ∀ k, counter ≤ k → (nameOf k ∈ dds ↔ nameOf k ∈ dds')) (n : Nat) :
    findName dds n counter = findName dds' n counter := by
  induction n generalizing counter with
  | zero => rfl
  | succ n ih =>
    have hRest := ih fun k hk => h k (Nat.le_of_succ_le hk)
    by_cases hMem : nameOf counter ∈ dds
    · rw [findName_succ, findName_succ, if_pos hMem, if_pos ((h counter (Nat.le_refl _)).mp hMem), hRest]
    · rw [findName_succ, findName_succ, if_neg hMem, if_neg fun hMem' => hMem ((h counter (Nat.le_refl _)).mpr hMem')]

/-- The name shadows no variable: each round that goes on has found one of them. -/
theorem findName_fresh {dds : List Word} {n : Nat} (h : dds.length ≤ n) (counter : Nat) :
    (findName dds n counter).1 ∉ dds := by
  induction n generalizing dds counter with
  | zero =>
    rw [List.eq_nil_of_length_eq_zero (Nat.le_zero.mp h)]
    exact List.not_mem_nil
  | succ n ih =>
    rw [findName_succ]
    split
    · rename_i hMem
      have hOther (k : Nat) (hk : counter + 1 ≤ k) : nameOf k ∈ dds ↔ nameOf k ∈ dds.erase (nameOf counter) := by
        refine (List.mem_erase_of_ne ?_).symm
        intro hSame
        have hIndex := nameOf_injective hSame
        omega
      have hLength : (dds.erase (nameOf counter)).length ≤ n := by
        rw [List.length_erase_of_mem hMem]
        omega
      obtain ⟨k, hk, hName⟩ := findName_eq dds n (counter + 1)
      have hFresh := ih hLength (counter + 1)
      rw [← findName_congr hOther, hName, ← hOther k hk] at hFresh
      rw [hName]
      exact hFresh
    · assumption

/-! ## The call -/

theorem elementTypes_simple : ∀ type ∈ elementTypes, isSimpleType type = true := by decide

/-- The call goes wrong for sizes whose product only wraps to the number of values, and for values that do not fit. -/
theorem make_array_iff {F32 F64 : Type} (narrow : F64 → F32) (widen : F32 → F64) (unset : Word) (dds : List Word)
    (typeName shape : Word) (values : List (Constant F64)) (counter : Nat) :
    MakesArray widen (functionMakeArray narrow unset dds (.str typeName :: .str shape :: values) counter)
      (getType (String.ofList (cString typeName))) shape values ↔
    (getType (String.ofList (cString typeName)) ∈ elementTypes → ∀ sizes, Written shape sizes →
      (∀ size ∈ sizes, Size size) → sizes.prod ≡ values.length [ZMOD 18446744073709551616] →
        (∀ size ∈ sizes, 1 ≤ size) ∧ sizes.prod = values.length ∧
          ∀ v ∈ values, Fits widen narrow (getType (String.ofList (cString typeName))) v) := by
  rw [functionMakeArray]
  generalize hType : getType (String.ofList (cString typeName)) = type
  have hFirst : (Call.ofExcept (extractStringArgument (.str typeName : Constant F64)) : Call Nat Word) counter =
      .ok typeName counter := rfl
  have hSecond : (Call.ofExcept (extractStringArgument (.str shape : Constant F64)) : Call Nat Word) counter =
      .ok shape counter := rfl
  rw [Call.bind_of_ok hFirst, Call.bind_of_ok hSecond]
  dsimp only
  rw [hType]
  by_cases hSimple : isSimpleType type = false
  · rw [if_pos hSimple]
    refine iff_of_true ⟨_, .inl rfl⟩ ?_
    intro hMem
    rw [elementTypes_simple type hMem] at hSimple
    cases hSimple
  rw [if_neg hSimple]
  rcases parseDims_cases shape with ⟨dims, hDims, hWritten, hSizes⟩ | ⟨msg, hError⟩
  swap
  · rw [hError]
    refine iff_of_true ⟨msg, .inl rfl⟩ ?_
    intro _ sizes hSizes hAll
    have hOk := (parseDims_ok shape sizes).mpr ⟨hSizes, hAll⟩
    rw [hError] at hOk
    cases hOk
  have hUnique {sizes : List Int} (hSizes : Written shape sizes) (hAll : ∀ size ∈ sizes, Size size) : sizes = dims := by
    have hOk := (parseDims_ok shape sizes).mpr ⟨hSizes, hAll⟩
    rw [hDims] at hOk
    exact (Except.ok.inj hOk).symm
  rw [hDims]
  by_cases hMem : type ∈ elementTypes
  swap
  · have hNew : newVariable type = .error (.InternalErr "Unknow type") := if_neg hMem
    rw [hNew]
    exact iff_of_true ⟨_, .inr rfl⟩ fun h => absurd h hMem
  have hNew : newVariable type = .ok () := if_pos hMem
  rw [hNew, forall_prop_of_true hMem]
  have hParsed : (Call.ofExcept (.ok dims) : Call Nat (List Int)) counter = .ok dims counter := rfl
  have hName : newName dds counter =
      .ok (findName dds dds.length counter).1 (findName dds dds.length counter).2 := rfl
  generalize (findName dds dds.length counter).1 = name at hName
  generalize (findName dds dds.length counter).2 = counter' at hName
  have hVariable : (Call.ofExcept (.ok ()) : Call Nat Unit) counter' = .ok () counter' := rfl
  rw [Call.bind_of_ok hParsed, Call.bind_of_ok hName, Call.bind_of_ok hVariable]
  by_cases hCount : dims.prod ≡ values.length [ZMOD 18446744073709551616]
  swap
  · rw [if_pos fun h => hCount ((count_iff dims values.length).mp h)]
    refine iff_of_true ⟨_, .inl rfl⟩ ?_
    intro sizes hText hAll hProd
    rw [hUnique hText hAll] at hProd
    exact absurd hProd hCount
  rw [if_neg (not_not.mpr ((count_iff dims values.length).mpr hCount))]
  have hAll : (∀ sizes, Written shape sizes → (∀ size ∈ sizes, Size size) →
      sizes.prod ≡ values.length [ZMOD 18446744073709551616] → (∀ size ∈ sizes, 1 ≤ size) ∧
        sizes.prod = values.length ∧ ∀ v ∈ values, Fits widen narrow type v) ↔
      (∀ size ∈ dims, 1 ≤ size) ∧ dims.prod = values.length ∧ ∀ v ∈ values, Fits widen narrow type v := by
    constructor
    · intro h
      exact h dims hWritten hSizes hCount
    · rintro h sizes hText hAll -
      rw [hUnique hText hAll]
      exact h
  rw [hAll, fits_iff hMem]
  cases hRead : readElements narrow type values with
  | error e =>
    refine iff_of_false ?_ ?_
    · rintro ⟨msg, hMsg | hMsg⟩
      · exact absurd ((readElements_error hMem hRead).symm.trans hMsg) (by simp)
      · exact absurd ((readElements_error hMem hRead).symm.trans hMsg) (by simp)
    · rintro ⟨-, -, elements, hOk, -⟩
      cases hOk
  | ok elements =>
    let made : MadeArray F32 F64 := ⟨{ setValue type elements
      (dims.foldl (fun dest size => dest.appendDim unset size []) (Dap2.Array.new unset name .null)) with sendP :=
        true },
      type, elements, true⟩
    have hSame : sizesOf made = dims := by
      rw [sizesOf]
      change (setValue type elements _).shape.map Dap2.Dimension.size = dims
      rw [setValue_shape, append_sizes]
      rfl
    change MakesArray widen (.ok (.array made) counter') type shape values ↔ _
    constructor
    · rintro ⟨_, hMade, hText, hRequired⟩
      obtain rfl := Response.array.inj hMade
      rw [← hSame]
      exact ⟨hText.positive, hText.product, elements, rfl,
        (List.forall₂_and_left values elements).mpr ⟨hRequired, hText.values⟩⟩
    · rintro ⟨hPositive, hProduct, found, hFound, hRest⟩
      obtain rfl := Except.ok.inj hFound
      obtain ⟨hRequired, hValues⟩ := (List.forall₂_and_left values elements).mp hRest
      refine ⟨made, rfl, ⟨?_, ?_, ?_, hValues⟩, hRequired⟩
      · rw [hSame]
        exact hWritten
      · rw [hSame]
        exact hPositive
      · rw [hSame]
        exact hProduct

def zeros : List (Constant Unit) := List.replicate 6 (.int32 ⟨0, by simp [InInt, INT_MAX]⟩)

/-- Six values for two negative sizes. -/
theorem negative_sizes_made : ¬ ∀ (F32 F64 : Type) (narrow : F64 → F32) (widen : F32 → F64) (unset : Word)
    (dds : List Word) (typeName shape : Word) (values : List (Constant F64)) (counter : Nat),
    MakesArray widen (functionMakeArray narrow unset dds (.str typeName :: .str shape :: values) counter)
      (getType (String.ofList (cString typeName))) shape values := by
  intro h
  have hMade := h Unit Unit id id [] [] "Int32".toList "[-2][-3]".toList zeros 1
  obtain ⟨made, hResponse, hText, -⟩ := hMade
  cases hResponse
  exact absurd (hText.positive (-2) List.mem_cons_self) (by decide)

end Libdap.Functions
