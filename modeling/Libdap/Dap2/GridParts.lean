import Libdap.Core.Store
import Libdap.Core.Call

/-! # The parts of a Grid

A Grid keeps its array in `d_array_var`, its maps in `d_map_vars` and both once more in the child list
`d_vars` of `Constructor`. The lists hold pointers; the variables are on the heap, and so are the
Grids. What a variable holds besides its parent has no part in this.
-/

namespace Libdap.Dap2
open Core
set_option autoImplicit false

structure Cell where
  isArray : Bool
  /-- The Grid that `set_parent` was called with. -/
  parent : Option Nat

structure GridParts where
  arrayVar : Option Nat
  mapVars : List Nat
  vars : List Nat

structure World where
  vars : Store Cell
  grids : Store GridParts

/-- The enumeration `Part`. -/
inductive PartName
  | nil
  | array
  | maps
  deriving DecidableEq

def readVar (r : Nat) : Call World Cell := fun w =>
  match w.vars.cell r with
  | none => .error .undefined w
  | some c => .ok c w

def readGrid (g : Nat) : Call World GridParts := fun w =>
  match w.grids.cell g with
  | none => .error .undefined w
  | some o => .ok o w

def modifyGrid (g : Nat) (f : GridParts → GridParts) : Call World Unit := fun w =>
  .ok () { w with grids := w.grids.modify g f }

def setParent (r g : Nat) : Call World Unit := do
  let _ ← readVar r
  modify fun w => { w with vars := w.vars.modify r fun c => { c with parent := some g } }

/-- The copy has the parent of the original until `set_parent` is called. -/
def ptrDuplicate (r : Nat) : Call World Nat := do
  let c ← readVar r
  fun w => .ok w.vars.next { w with vars := w.vars.alloc c }

def deleteVar (r : Nat) : Call World Unit := do
  let _ ← readVar r
  modify fun w => { w with vars := w.vars.free r }

def deleteVars : List Nat → Call World Unit
  | [] => pure ()
  | r :: rs => do
    deleteVar r
    deleteVars rs

/-- Both lists get the pointer at their ends. -/
def pushMap (g r : Nat) : Call World Unit :=
  modifyGrid g fun o => { o with mapVars := o.mapVars ++ [r], vars := o.vars ++ [r] }

def pushVar (g r : Nat) : Call World Unit := modifyGrid g fun o => { o with vars := o.vars ++ [r] }

def setArray (g : Nat) : Option Nat → Call World Unit
  | none => throw (.InternalErr "Grid::set_array(): Cannot set to null!")
  | some r => do
    let o ← readGrid g
    if o.arrayVar = some r then pure ()
    else
      deleteVars o.arrayVar.toList
      modifyGrid g fun o => { o with arrayVar := some r }
      setParent r g

def passingNull : Fault := .InternalErr "Passing NULL pointer as variable to be added."

def arrayAlreadySet : Fault :=
  .InternalErr "Error: Grid::add_var called with part==Array, but the array was already set!"

def notAnArray : Fault := .InternalErr "Grid::add_var(): with Part==array: object is not an Array!"

/-- The variable is to be the array of the Grid. -/
def takesArray (o : GridParts) (part : PartName) : Bool :=
  part = .array || (part = .nil && o.arrayVar.isNone)

/-- `Grid::add_var` -/
def addVar (g : Nat) (bt : Option Nat) (part : PartName) : Call World Unit :=
  match bt with
  | none => throw passingNull
  | some r => do
    let o ← readGrid g
    if part = .array ∧ o.arrayVar.isSome then throw arrayAlreadySet
    else if takesArray o part then
      let c ← readVar r
      if !c.isArray then throw notAnArray
      else
        let clone ← ptrDuplicate r
        setArray g (some clone)
        pushVar g clone
    else
      let clone ← ptrDuplicate r
      setParent clone g
      pushMap g clone

/-- `Grid::add_var_nocopy`, which sets the parent before it looks at the type. -/
def addVarNocopy (g : Nat) (bt : Option Nat) (part : PartName) : Call World Unit :=
  match bt with
  | none => throw passingNull
  | some r => do
    let o ← readGrid g
    if part = .array ∧ o.arrayVar.isSome then throw arrayAlreadySet
    else
      setParent r g
      if takesArray o part then
        let c ← readVar r
        if !c.isArray then throw notAnArray
        else
          setArray g (some r)
          pushVar g r
      else pushMap g r

/-- `Grid::add_map` -/
def addMap (g : Nat) (newMap : Option Nat) (addAsCopy : Bool) : Call World Unit :=
  match newMap with
  | none => throw (.InternalErr "Grid::add_map(): cannot have p_new_map null!")
  | some r => do
    let m ← if addAsCopy then ptrDuplicate r else pure r
    setParent m g
    pushMap g m

/-- `Grid::prepend_map`, which does not look for a null pointer. -/
def prependMap (g : Nat) (newMap : Option Nat) (addCopy : Bool) : Call World Unit :=
  match newMap with
  | none => throw .undefined
  | some r => do
    let m ← if addCopy then ptrDuplicate r else pure r
    setParent m g
    modifyGrid g fun o => { o with mapVars := m :: o.mapVars, vars := m :: o.vars }

/-- The loop over the maps in `Grid::m_duplicate`. -/
def duplicateMaps (g : Nat) : List Nat → Call World Unit
  | [] => pure ()
  | m :: ms => do
    let clone ← ptrDuplicate m
    setParent clone g
    pushMap g clone
    duplicateMaps g ms

/-- `Grid::m_duplicate`, from the Grid `s` -/
def gridDuplicate (g s : Nat) : Call World Unit := do
  modifyGrid g fun o => { o with vars := [] }
  let source ← readGrid s
  match source.arrayVar with
  | none => throw .undefined
  | some a =>
    let clone ← ptrDuplicate a
    modifyGrid g fun o => { o with arrayVar := some clone }
    setParent clone g
    pushVar g clone
    duplicateMaps g source.mapVars

/-- `Constructor::m_duplicate`, from the child list of another Grid -/
def duplicateVars (g : Nat) : List Nat → Call World Unit
  | [] => pure ()
  | r :: rs => do
    let clone ← ptrDuplicate r
    setParent clone g
    pushVar g clone
    duplicateVars g rs

/-- The copy constructor of Grid; that of Constructor copies no child. -/
def copyGrid (s : Nat) : Call World Unit := do
  let w ← get
  set { w with grids := w.grids.alloc ⟨none, [], []⟩ }
  gridDuplicate w.grids.next s

/-- `Grid::operator=`. The maps that were deleted stay in `d_map_vars`. -/
def assignParts (g s : Nat) : Call World Unit :=
  if g = s then pure ()
  else do
    let o ← readGrid g
    deleteVars o.arrayVar.toList
    modifyGrid g fun o => { o with arrayVar := none }
    deleteVars o.mapVars
    let source ← readGrid s
    duplicateVars g source.vars
    gridDuplicate g s

/-- What a program can do: make variables and Grids, and call the seven mutators. -/
inductive Op
  | newVar (isArray : Bool)
  | newGrid
  | addVar (g : Nat) (bt : Option Nat) (part : PartName)
  | addVarNocopy (g : Nat) (bt : Option Nat) (part : PartName)
  | setArray (g : Nat) (newArr : Option Nat)
  | addMap (g : Nat) (newMap : Option Nat) (addAsCopy : Bool)
  | prependMap (g : Nat) (newMap : Option Nat) (addCopy : Bool)
  | copyGrid (s : Nat)
  | assign (g s : Nat)

def Op.call : Op → Call World Unit
  | newVar isArray => modify fun w => { w with vars := w.vars.alloc ⟨isArray, none⟩ }
  | newGrid => modify fun w => { w with grids := w.grids.alloc ⟨none, [], []⟩ }
  | addVar g bt part => Dap2.addVar g bt part
  | addVarNocopy g bt part => Dap2.addVarNocopy g bt part
  | setArray g newArr => Dap2.setArray g newArr
  | addMap g newMap addAsCopy => Dap2.addMap g newMap addAsCopy
  | prependMap g newMap addCopy => Dap2.prependMap g newMap addCopy
  | copyGrid s => Dap2.copyGrid s
  | assign g s => assignParts g s

/-- The state after a call. One that throws an exception leaves what it did; after undefined behaviour
there is no state. -/
def Op.after (op : Op) (w : World) : Option World :=
  match op.call w with
  | .ok _ w' => some w'
  | .error .undefined _ => none
  | .error _ w' => some w'

def World.empty : World := ⟨.empty, .empty⟩

end Libdap.Dap2
