import Mathlib.Algebra.BigOperators.Group.List.Basic
import Libdap.Core.Triple
import Libdap.Dap2.Array
import Libdap.Dap2.Escaping

/-! # The length of an Array

The length is kept beside the dimensions and computed anew by what changes them.
-/

namespace Libdap.Dap2
open Core Constraint
set_option autoImplicit false

/-- The variable that `add_var` is given: none, one that is no Array, or an Array with the name of its template,
if it has one. -/
inductive Template
  | null
  | other (name : Word)
  | array (var : Option Word) (a : Array)

namespace Array

variable (unset : Word)

def setName (n : Word) (a : Array) : Array := { a with name := String.ofList (www2id unset n) }

def newDimension (size : Int) (name : Word) : Dimension where
  size := size
  name := String.ofList (www2id unset name)
  start := 0
  stop := size - 1
  stride := 1
  cSize := size

def appendDim (size : Int) (name : Word) (a : Array) : Array :=
  updateLength { a with shape := a.shape ++ [newDimension unset size name] }

def prependDim (size : Int) (name : Word) (a : Array) : Array :=
  updateLength { a with shape := newDimension unset size name :: a.shape }

def clearAllDims (a : Array) : Array := { a with shape := [] }

def clearConstraint (a : Array) : Array := a.resetConstraint

/-- `Vector::add_var`, of which the template itself is left out. -/
def addTemplate (n : Option Word) (a : Array) : Array :=
  match n with
  | none => a
  | some n => if n.isEmpty then a else a.setName unset n

def addVar (v : Template) (a : Array) : Array :=
  match v with
  | .null => a.addTemplate unset none
  | .other n => a.addTemplate unset (some n)
  | .array var v => v.shape.foldl (fun a d => a.appendDim unset d.size d.name.toList) (a.addTemplate unset var)

def new (n : Word) (v : Template) : Array := addVar unset v ⟨String.ofList n, [], -1, false⟩

/-- The copy constructor. -/
def duplicate (rhs : Array) : Array := ⟨rhs.name, rhs.shape, rhs.length, rhs.sendP⟩

def assign (a rhs : Array) : Array :=
  { a with
    name := rhs.name
    shape := rhs.shape
    length := rhs.length
    sendP := rhs.sendP }

def dimensionSize (a : Array) (i : Nat) (constrained : Bool) : Int :=
  match a.shape[i]? with
  | none => 0
  | some d => if constrained then d.cSize else d.size

/-- The states that an Array can get into. -/
inductive Reached : Array → Prop
  | new (n : Word) (v : Template) : Reached (Array.new unset n v)
  | appendDim {a : Array} (size : Int) (name : Word) (h : Reached a) : Reached (a.appendDim unset size name)
  | prependDim {a : Array} (size : Int) (name : Word) (h : Reached a) : Reached (a.prependDim unset size name)
  | clearAllDims {a : Array} (h : Reached a) : Reached a.clearAllDims
  | resetConstraint {a : Array} (h : Reached a) : Reached a.resetConstraint
  | clearConstraint {a : Array} (h : Reached a) : Reached a.clearConstraint
  | addConstraint {a a' : Array} (i : Nat) (start stride stop : Int) (h : Reached a)
    (hRun : (Array.addConstraint i start stride stop).after a = some a') : Reached a'
  | addVar {a : Array} (v : Template) (h : Reached a) : Reached (a.addVar unset v)
  | duplicate {a : Array} (h : Reached a) : Reached a.duplicate
  | assign {a rhs : Array} (h : Reached a) (hRhs : Reached rhs) : Reached (a.assign rhs)

/-! ## The invariant -/

variable {unset}

/-- The length follows from the dimensions, if there are any, and none of them is larger under its constraint. -/
structure InStep (a : Array) : Prop where
  length : a.shape ≠ [] → a.updateLength.length = a.length
  sizes : ∀ d ∈ a.shape, d.cSize ≤ d.size

theorem updateLength_inStep {a : Array} (h : ∀ d ∈ a.shape, d.cSize ≤ d.size) : InStep a.updateLength :=
    ⟨fun _ => rfl, h⟩

theorem appendDim_inStep {a : Array} (h : InStep a) (size : Int) (name : Word) :
    InStep (a.appendDim unset size name) := by
  apply updateLength_inStep
  intro d hd
  rcases List.mem_append.mp hd with hd | hd
  · exact h.sizes d hd
  · rw [List.mem_singleton.mp hd]
    exact Int.le_refl _

theorem prependDim_inStep {a : Array} (h : InStep a) (size : Int) (name : Word) :
    InStep (a.prependDim unset size name) := by
  apply updateLength_inStep
  intro d hd
  rcases List.mem_cons.mp hd with rfl | hd
  · exact Int.le_refl _
  · exact h.sizes d hd

theorem resetConstraint_inStep (a : Array) : InStep a.resetConstraint := by
  rw [resetConstraint]
  split
  · rename_i hEmpty
    have hNone := List.isEmpty_iff.mp hEmpty
    exact ⟨fun hSome => absurd hNone hSome, by simp [hNone]⟩
  · apply updateLength_inStep
    intro d hd
    obtain ⟨d, -, rfl⟩ := List.mem_map.mp hd
    exact Int.le_refl _

theorem addConstraint_inStep {a a' : Array} (h : InStep a) {i : Nat} {start stride stop : Int}
    (hRun : (addConstraint i start stride stop).after a = some a') : InStep a' := by
  rw [Call.after] at hRun
  split at hRun
  · rename_i hOk
    cases hRun
    obtain ⟨d, d', hAt, hTaken, rfl⟩ := addConstraint_ok.mp hOk
    obtain ⟨-, -, -, -, hCount, rfl⟩ := Dimension.addConstraint_ok.mp hTaken
    apply updateLength_inStep
    intro e he
    rcases List.mem_or_eq_of_mem_set he with he | rfl
    · exact h.sizes e he
    · exact hCount
  · cases hRun
  · rename_i f a₁ hNot hError
    cases hRun
    have hSame : a' = a := by
      rw [addConstraint] at hError
      split at hError
      · cases hError
        rfl
      · split at hError
        · cases hError
          rfl
        · cases hError
    rwa [hSame]

theorem addTemplate_inStep (unset : Word) {a : Array} (h : InStep a) (n : Option Word) :
    InStep (a.addTemplate unset n) := by
  cases n with
  | none => exact h
  | some n =>
    simp only [addTemplate]
    split
    · exact h
    · exact ⟨h.length, h.sizes⟩

theorem addVar_inStep {a : Array} (h : InStep a) (v : Template) : InStep (a.addVar unset v) := by
  cases v with
  | null => exact addTemplate_inStep unset h none
  | other n => exact addTemplate_inStep unset h (some n)
  | array var v =>
    rw [addVar]
    have hNamed : InStep (a.addTemplate unset var) := addTemplate_inStep unset h var
    generalize a.addTemplate unset var = b at hNamed
    generalize v.shape = dims
    induction dims generalizing b with
    | nil => exact hNamed
    | cons d dims ih => exact ih _ (appendDim_inStep hNamed d.size d.name.toList)

theorem Reached.inStep {a : Array} (h : Reached unset a) : InStep a := by
  induction h with
  | new n v => exact addVar_inStep ⟨fun hSome => absurd rfl hSome, by simp⟩ v
  | appendDim size name _ ih => exact appendDim_inStep ih size name
  | prependDim size name _ ih => exact prependDim_inStep ih size name
  | clearAllDims _ _ => exact ⟨fun hSome => absurd rfl hSome, fun _ hd => absurd hd List.not_mem_nil⟩
  | resetConstraint _ _ => exact resetConstraint_inStep _
  | clearConstraint _ _ => exact resetConstraint_inStep _
  | addConstraint i start stride stop _ hRun ih => exact addConstraint_inStep ih hRun
  | addVar v _ ih => exact addVar_inStep ih v
  | duplicate _ ih => exact ⟨ih.length, ih.sizes⟩
  | assign _ _ _ ih => exact ⟨ih.length, ih.sizes⟩

/-! ## The length as a product -/

theorem int32_mul (m n : Int) : int32 (int32 m * n) = int32 (m * n) := by
  have hSame : (int32 m * n + 2147483648) % 4294967296 = (m * n + 2147483648) % 4294967296 := by
    have hMod : int32 m % 4294967296 = m % 4294967296 := by
      simp only [int32]
      omega
    rw [Int.add_emod, Int.mul_emod, hMod, ← Int.mul_emod, ← Int.add_emod]
  rw [int32, hSame, ← int32]

theorem updateLength_eq (a : Array) : a.updateLength.length = int32 (a.shape.map factor).prod := by
  have hFold (dims : List Dimension) (m : Int) :
      dims.foldl (fun length d => int32 (length * factor d)) (int32 m) = int32 (m * (dims.map factor).prod) := by
    induction dims generalizing m with
    | nil => simp
    | cons d dims ih => rw [List.foldl_cons, int32_mul, ih, List.map_cons, List.prod_cons, Int.mul_assoc]
  have hOne : int32 1 = 1 := by decide
  have hAll := hFold a.shape 1
  rwa [hOne, Int.one_mul] at hAll

/-- With at least one dimension, the length is the product of the sizes under the constraint, as an `int` holds
it, where a size that is not positive counts as one. -/
theorem length_of_reached {a : Array} (h : Reached unset a) :
    (a.shape ≠ [] → a.length = int32 (a.shape.map factor).prod) ∧ ∀ i,
      a.dimensionSize i true ≤ a.dimensionSize i false := by
  refine ⟨fun hSome => ?_, fun i => ?_⟩
  · rw [← h.inStep.length hSome, updateLength_eq]
  · simp only [dimensionSize]
    split
    · exact Int.le_refl _
    · rename_i d hd
      exact h.inStep.sizes d (List.mem_of_getElem? hd)

theorem length_of_empty_dimension : Reached [] ((new [] "a".toList .null).appendDim [] 0 "d".toList) ∧
    ((new [] "a".toList .null).appendDim [] 0 "d".toList).length = 1 ∧
    (((new [] "a".toList .null).appendDim [] 0 "d".toList).shape.map Dimension.cSize).prod = 0 :=
  ⟨.appendDim 0 _ (.new _ _), by decide, by decide⟩

theorem length_of_matrix : (((new [] "a".toList .null).appendDim [] 3 "x".toList).appendDim [] 4 "y".toList).length =
    int32 12 :=
  (length_of_reached (a := ((new [] "a".toList .null).appendDim [] 3 "x".toList).appendDim [] 4 "y".toList)
    (.appendDim 4 _ (.appendDim 3 _ (.new _ _)))).1 (by decide)

end Array

end Libdap.Dap2
