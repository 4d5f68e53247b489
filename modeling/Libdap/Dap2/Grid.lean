import Libdap.Dap2.Array
import Libdap.Dap2.Variable

/-! # A Grid and the constraints of its parts

The arrays of a dataset are kept by the address of the variable, the array of a Grid at place 0 and
its maps behind it.
-/

namespace Libdap.Dap2
open Constraint
set_option autoImplicit false

abbrev Arrays := Addr → Array

def arrayAddr (grid : Addr) : Addr := grid ++ [0]

def mapAddrs (grid : Addr) (mapVars : List Variable) : List Addr :=
  (List.range mapVars.length).map fun i => grid ++ [i + 1]

/-- `BaseType::check_semantics`; every variable of the tree has a type. -/
def baseCheckSemantics (v : Variable) : Except String Unit :=
  if v.name.isEmpty then .error "Every variable must have both a name and a type\n" else .ok ()

/-- `Array::check_semantics` -/
def arrayCheckSemantics (v : Variable) (a : Array) : Except String Unit :=
  if v.name.isEmpty ∨ a.shape.isEmpty then .error "An array variable must have dimensions" else .ok ()

/-- The element of the variable, when it is an Array. -/
def elementOf : Variable → Option Variable
  | .array _ element => some element
  | _ => none

def isSimpleType : Variable → Bool
  | .simple _ => true
  | _ => false

/-- The size of the dimension at place `i`. -/
def sizeAt (a : Array) (i : Nat) : Int := (a.shape[i]?.map Dimension.size).getD 0

def notSimple (name : Word) : String :=
  "The field variable `" ++ String.ofList name ++
    "' must be an array of simple type elements (e.g., int32, String)\n"

/-- One turn of the loop of `Grid::check_semantics`, with the map for the dimension `i`. -/
def checkMap (name : Word) (arrayVar : Variable) (a : Array) (i : Nat) (v : Variable) (m : Array) :
    Except String Unit :=
  if arrayVar.name = v.name then
    .error ("Grid map variable `" ++ String.ofList v.name ++
      "' conflicts with the grid array name in grid `" ++ String.ofList name ++ "'\n")
  else match elementOf v with
    | none => .error ("Grid map variable  `" ++ String.ofList v.name ++ "' is not an array\n")
    | some element =>
      if !isSimpleType element then .error (notSimple name)
      else if m.shape.length ≠ 1 then
        .error ("Grid map variable  `" ++ String.ofList v.name ++ "' must be only one dimension\n")
      else if sizeAt m 0 ≠ sizeAt a i then
        .error ("Grid map variable  `" ++ String.ofList v.name ++
          "'s' size does not match the size of array variable '" ++ String.ofList arrayVar.name ++
          "'s' cooresponding dimension\n")
      else .ok ()

def checkMaps (arrays : Arrays) (grid : Addr) (name : Word) (arrayVar : Variable) :
    Nat → List Variable → Except String Unit
  | _, [] => .ok ()
  | i, v :: vs => do
    checkMap name arrayVar (arrays (arrayAddr grid)) i v (arrays (grid ++ [i + 1]))
    checkMaps arrays grid name arrayVar (i + 1) vs

def checkAllMaps (arrays : Arrays) (grid : Addr) : Nat → List Variable → Except String Unit
  | _, [] => .ok ()
  | i, v :: vs => do
    arrayCheckSemantics v (arrays (grid ++ [i + 1]))
    checkAllMaps arrays grid (i + 1) vs

/-- `Grid::check_semantics` -/
def gridCheckSemantics (arrays : Arrays) (grid : Addr) (name : Word) (arrayVar : Variable)
    (mapVars : List Variable) (all : Bool) : Except String Unit := do
  baseCheckSemantics (.grid name arrayVar mapVars)
  match elementOf arrayVar with
  | none =>
    throw ("Grid `" ++ String.ofList name ++ "'s' member `" ++ String.ofList arrayVar.name ++
      "' must be an array\n")
  | some element =>
    if !isSimpleType element then throw (notSimple name)
    else if mapVars.length ≠ (arrays (arrayAddr grid)).shape.length then
      throw ("The number of map variables for grid `" ++ String.ofList name ++
        "' does not match the number of dimensions of `" ++ String.ofList arrayVar.name ++ "'\n")
    else
      checkMaps arrays grid name arrayVar 0 mapVars
      if all then
        arrayCheckSemantics arrayVar (arrays (arrayAddr grid))
        checkAllMaps arrays grid 0 mapVars

section
variable {V : Type} (arrays : V → Array)

/-- `Grid::components` -/
def components (arrayVar : V) (mapVars : List V) (constrained : Bool) : Nat :=
  if constrained then
    (if (arrays arrayVar).sendP then 1 else 0) + mapVars.countP fun v => (arrays v).sendP
  else 1 + mapVars.length

/-- The only dimension of a map has the range of the dimension `d`. -/
def sameRange (m : Array) (d : Dimension) : Bool :=
  match m.shape with
  | [] => d.start = 0 && d.stop = 0 && d.stride = 0
  | fd :: _ => fd.start = d.start && fd.stop = d.stop && fd.stride = d.stride

/-- The loop of `Grid::projection_yields_grid`. -/
def mapsMatch : List Dimension → List V → Bool
  | d :: ds, v :: vs =>
    if d.cSize ≠ 0 ∧ (arrays v).sendP then sameRange (arrays v) d && mapsMatch ds vs else false
  | _, _ => true

/-- `Grid::projection_yields_grid` -/
def projectionYieldsGrid (arrayVar : V) (mapVars : List V) : Bool :=
  if !(arrays arrayVar).sendP then false
  else if components arrays arrayVar mapVars true = 1 then false
  else mapsMatch arrays (arrays arrayVar).shape mapVars

end

/-! ## What the checks say -/

/-- The array has as many dimensions as there are maps, and each map has one, of the same size. -/
structure WellFormed (arrays : Arrays) (grid : Addr) (arrayVar : Variable)
    (mapVars : List Variable) : Prop where
  isArray : ∃ element, arrayVar = .array arrayVar.name element
  rank : mapVars.length = (arrays (arrayAddr grid)).shape.length
  mapsAreArrays : ∀ v ∈ mapVars, ∃ element, v = .array v.name element
  sizes : ∀ i, i < mapVars.length → ∃ m, (arrays (grid ++ [i + 1])).shape = [m] ∧
    m.size = sizeAt (arrays (arrayAddr grid)) i

theorem elementOf_eq {v element : Variable} (h : elementOf v = some element) :
    v = .array v.name element := by
  cases v with
  | array n e =>
    cases h
    rfl
  | simple n => cases h
  | fields kind n vs => cases h
  | grid n arrayVar mapVars => cases h

theorem checkMap_ok {name : Word} {arrayVar v : Variable} {a m : Array} {i : Nat}
    (h : checkMap name arrayVar a i v m = .ok ()) :
    (∃ element, v = .array v.name element) ∧ ∃ d, m.shape = [d] ∧ d.size = sizeAt a i := by
  rw [checkMap] at h
  split at h
  · cases h
  · split at h
    · cases h
    · rename_i element hElement
      split at h
      · cases h
      · split at h
        · cases h
        · rename_i hOne
          split at h
          · cases h
          · rename_i hSize
            obtain ⟨d, hShape⟩ := List.length_eq_one_iff.mp (not_not.mp hOne)
            refine ⟨⟨element, elementOf_eq hElement⟩, d, hShape, ?_⟩
            rw [sizeAt, hShape] at hSize
            exact not_not.mp hSize

theorem checkMaps_ok {arrays : Arrays} {grid : Addr} {name : Word} {arrayVar : Variable} {i : Nat}
    {mapVars : List Variable} (h : checkMaps arrays grid name arrayVar i mapVars = .ok ()) :
    (∀ v ∈ mapVars, ∃ element, v = .array v.name element) ∧
      ∀ j, j < mapVars.length → ∃ d, (arrays (grid ++ [i + j + 1])).shape = [d] ∧
        d.size = sizeAt (arrays (arrayAddr grid)) (i + j) := by
  induction mapVars generalizing i with
  | nil => exact ⟨nofun, nofun⟩
  | cons v vs ih =>
    rw [checkMaps] at h
    cases hFirst : checkMap name arrayVar (arrays (arrayAddr grid)) i v (arrays (grid ++ [i + 1])) with
    | error e =>
      rw [hFirst] at h
      cases h
    | ok u =>
      rw [hFirst] at h
      obtain ⟨hArray, d, hShape, hSize⟩ := checkMap_ok hFirst
      obtain ⟨hArrays, hShapes⟩ := ih h
      constructor
      · intro w hMem
        rcases List.mem_cons.mp hMem with rfl | hRest
        · exact hArray
        · exact hArrays w hRest
      · intro j hj
        cases j with
        | zero => exact ⟨d, hShape, hSize⟩
        | succ j =>
          rw [Nat.add_comm j 1, ← Nat.add_assoc]
          exact hShapes j (Nat.lt_of_succ_lt_succ hj)

theorem gridCheckSemantics_ok {arrays : Arrays} {grid : Addr} {name : Word} {arrayVar : Variable}
    {mapVars : List Variable} {all : Bool}
    (h : gridCheckSemantics arrays grid name arrayVar mapVars all = .ok ()) :
    WellFormed arrays grid arrayVar mapVars := by
  rw [gridCheckSemantics, baseCheckSemantics] at h
  split at h
  · cases h
  · cases hElement : elementOf arrayVar with
    | none =>
      rw [hElement] at h
      cases h
    | some element =>
      rw [hElement] at h
      change (if _ then _ else _) = _ at h
      split at h
      · cases h
      · split at h
        · cases h
        · rename_i hRank
          cases hMaps : checkMaps arrays grid name arrayVar 0 mapVars with
          | error e =>
            rw [hMaps] at h
            cases h
          | ok u =>
            obtain ⟨hArrays, hShapes⟩ := checkMaps_ok hMaps
            refine ⟨⟨element, elementOf_eq hElement⟩, not_not.mp hRank, hArrays, ?_⟩
            intro i hi
            have hAt := hShapes i hi
            rwa [Nat.zero_add] at hAt

end Libdap.Dap2
