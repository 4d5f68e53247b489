import Libdap.Dap2.AttrTable
import Libdap.Dap2.Escaping

/-! # Variables as the DDX parser builds them

A variable owns its attribute table, which is on the heap. It is copied when it is added to another one.
-/

namespace Libdap.Ddx
open Core Constraint Dap2
set_option autoImplicit false

/-- How a callback ends other than by returning. -/
inductive Stop
  /-- `top` or `pop` of a stack without elements. -/
  | emptyStack
  /-- A member of an object that is not there. -/
  | nullPointer
  /-- An exception, or what an operation of an attribute table ended with. -/
  | fault (f : Fault)
  deriving DecidableEq, Repr

/-- An operation of an attribute table. -/
def onTables {α : Type} (x : Call Heap α) (h : Heap) : Except Stop (α × Heap) :=
  match x h with
  | .ok a h' => .ok (a, h')
  | .error f _ => .error (.fault f)

inductive DodsType
  | null
  | byte
  | int8
  | uint8
  | int16
  | uint16
  | int32
  | uint32
  | int64
  | uint64
  | float32
  | float64
  | str
  | url
  | url4
  | array
  | structure_
  | sequence
  | grid
  deriving DecidableEq, Repr

def typeNames : List (String × DodsType) :=
  [("Byte", .byte), ("Int8", .int8), ("UInt8", .uint8), ("Int16", .int16), ("UInt16", .uint16), ("Int32", .int32),
    ("UInt32", .uint32), ("Int64", .int64), ("UInt64", .uint64), ("Float32", .float32), ("Float64", .float64),
    ("String", .str), ("URL", .url4), ("Url", .url), ("Array", .array), ("Structure", .structure_),
    ("Sequence", .sequence), ("Grid", .grid)]

def getType (name : String) : DodsType := (typeNames.lookup name).getD .null

def isVectorType (t : DodsType) : Bool := t = .array

def isConstructorType (t : DodsType) : Bool := t = .structure_ || t = .sequence || t = .grid

def isSimpleType (t : DodsType) : Bool := t ≠ .null && !isVectorType t && !isConstructorType t

structure Dimension where
  size : Int
  name : Word
  deriving DecidableEq, Repr

/-- The template of an array is its only part; the array of a grid is its first part, and the maps are the others. -/
inductive BaseType
  | mk (type : DodsType) (name : Word) (attr : Nat) (shape : List Dimension) (vars : List BaseType)

namespace BaseType

def type : BaseType → DodsType
  | mk type _ _ _ _ => type

def name : BaseType → Word
  | mk _ name _ _ _ => name

def attr : BaseType → Nat
  | mk _ _ attr _ _ => attr

def shape : BaseType → List Dimension
  | mk _ _ _ shape _ => shape

def vars : BaseType → List BaseType
  | mk _ _ _ _ vars => vars

end BaseType

/-- How deep the recursion of the attribute tables may go, and the string that `www2id` makes of what was never set. -/
structure Env where
  stack : Nat
  unset : Word

variable (env : Env)

/-- The types `DDXParser::factory` knows. -/
def hasFactory (t : DodsType) : Bool :=
  t ≠ .null && t ≠ .int8 && t ≠ .uint8 && t ≠ .int64 && t ≠ .uint64 && t ≠ .url4

/-- `factory`, with the table of the new variable. -/
def factory (t : DodsType) (name : Word) (h : Heap) : Except Stop (Option BaseType × Heap) :=
  if hasFactory t then do
    let table ← onTables newTable h
    .ok (some (.mk t name table.1 [] []), table.2)
  else .ok (none, h)

def setName (v : BaseType) (n : Word) : BaseType := .mk v.type (www2id env.unset n) v.attr v.shape v.vars

mutual

/-- `ptr_duplicate`. The copy of a grid starts with a copy of its array. -/
def ptrDuplicate : BaseType → Heap → Except Stop (BaseType × Heap)
  | .mk type name attr shape vars, h => do
    let table ← onTables newTable h
    let copied ← onTables (assignTable env.stack table.1 attr) table.2
    if type = .grid && vars.isEmpty then .error .nullPointer
    else do
      let parts ← duplicateAll vars copied.2
      .ok (.mk type name table.1 shape parts.1, parts.2)

def duplicateAll : List BaseType → Heap → Except Stop (List BaseType × Heap)
  | [], h => .ok ([], h)
  | v :: vs, h => do
    let first ← ptrDuplicate v h
    let rest ← duplicateAll vs first.2
    .ok (first.1 :: rest.1, rest.2)

end

mutual

/-- The destructor. -/
def delete : BaseType → Heap → Except Stop Heap
  | .mk _ _ attr _ vars, h => do
    let h ← deleteAll vars h
    let done ← onTables (deleteTable env.stack attr) h
    .ok done.2

def deleteAll : List BaseType → Heap → Except Stop Heap
  | [], h => .ok h
  | v :: vs, h => do
    let h ← delete v h
    deleteAll vs h

end

/-- `Vector::add_var` -/
def vectorAddVar (parent : BaseType) (v : Option BaseType) (h : Heap) : Except Stop (BaseType × Heap) := do
  let h ← deleteAll env parent.vars h
  match v with
  | none => .ok (.mk parent.type parent.name parent.attr parent.shape [], h)
  | some v => do
    let copy ← ptrDuplicate env v h
    let parent' : BaseType := .mk parent.type parent.name parent.attr parent.shape [copy.1]
    if !v.name.isEmpty then .ok (setName env parent' v.name, copy.2)
    else .ok (.mk parent.type parent.name parent.attr parent.shape [setName env copy.1 parent.name], copy.2)

def appendDim (v : BaseType) (size : Int) (name : Word) : BaseType :=
  .mk v.type v.name v.attr (v.shape ++ [⟨size, www2id env.unset name⟩]) v.vars

def notAnArray : Fault := .InternalErr "Grid::add_var(): with Part==array: object is not an Array!"

def unimplemented : Fault := .InternalErr "BaseType::add_var unimplemented"

/-- `add_var`, by the class of the parent. -/
def addVar (parent v : BaseType) (h : Heap) : Except Stop (BaseType × Heap) :=
  match parent.type with
  | .array =>
    if v.type = .array then do
      let r ← vectorAddVar env parent v.vars.head? h
      .ok (v.shape.foldl (fun a d => appendDim env a d.size d.name) r.1, r.2)
    else vectorAddVar env parent (some v) h
  | .grid =>
    if parent.vars.isEmpty && v.type ≠ .array then .error (.fault notAnArray)
    else do
      let copy ← ptrDuplicate env v h
      .ok (.mk parent.type parent.name parent.attr parent.shape (parent.vars ++ [copy.1]), copy.2)
  | .structure_ => do
    let copy ← ptrDuplicate env v h
    .ok (.mk parent.type parent.name parent.attr parent.shape (parent.vars ++ [copy.1]), copy.2)
  | .sequence => do
    let copy ← ptrDuplicate env v h
    .ok (.mk parent.type parent.name parent.attr parent.shape (parent.vars ++ [copy.1]), copy.2)
  | _ => .error (.fault unimplemented)

end Libdap.Ddx
