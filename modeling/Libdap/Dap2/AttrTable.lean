import Libdap.Constraint.Word
import Libdap.Core.Store
import Libdap.Core.Triple

/-! # Attribute tables

Tables and lists of values are on the heap. An entry of a table owns what it points to, unless it is an alias.
-/

namespace Libdap.Dap2
open Core Constraint
set_option autoImplicit false

inductive AttrType
  | unknown
  | container
  | byte
  | int16
  | uint16
  | int32
  | uint32
  | float32
  | float64
  | string
  | url
  | otherXml
  deriving DecidableEq, Repr

def attrTypeToString : AttrType → Word
  | .unknown => []
  | .container => "Container".toList
  | .byte => "Byte".toList
  | .int16 => "Int16".toList
  | .uint16 => "UInt16".toList
  | .int32 => "Int32".toList
  | .uint32 => "UInt32".toList
  | .float32 => "Float32".toList
  | .float64 => "Float64".toList
  | .string => "String".toList
  | .url => "Url".toList
  | .otherXml => "OtherXML".toList

def stringToAttrType (s : Word) : AttrType :=
  let s2 := s.map Char.toLower
  if s2 = "container".toList then .container
  else if s2 = "byte".toList then .byte
  else if s2 = "int16".toList then .int16
  else if s2 = "uint16".toList then .uint16
  else if s2 = "int32".toList then .int32
  else if s2 = "uint32".toList then .uint32
  else if s2 = "float32".toList then .float32
  else if s2 = "float64".toList then .float64
  else if s2 = "string".toList then .string
  else if s2 = "url".toList then .url
  else if s2 = "otherxml".toList then .otherXml
  else .unknown

/-- The blank that is put in cannot be part of another `%20`, so the search goes on behind it. -/
def removeSpaceEncoding : Word → Word
  | '%' :: '2' :: '0' :: cs => ' ' :: removeSpaceEncoding cs
  | c :: cs => c :: removeSpaceEncoding cs
  | [] => []

def addSpaceEncoding (s : Word) : Word := s.flatMap fun c => if c = ' ' then "%20".toList else [c]

inductive Ptr
  | null
  | ref (id : Nat)
  /-- A pointer that was never set. -/
  | indeterminate
  deriving DecidableEq, Repr

structure Entry where
  name : Word
  type : AttrType
  isAlias : Bool
  aliasedTo : Word
  isGlobal : Bool
  attributes : Ptr
  attr : Ptr
  deriving DecidableEq, Repr

structure AttrTable where
  dName : Word
  dParent : Ptr
  attrMap : List Entry
  dIsGlobalAttribute : Bool
  deriving DecidableEq, Repr

structure Heap where
  tables : Store AttrTable
  values : Store (List Word)

def Heap.empty : Heap := ⟨.empty, .empty⟩

/-! ## Reading and writing -/

def readTable (t : Nat) : Call Heap AttrTable := fun h =>
  match h.tables.cell t with
  | some tb => .ok tb h
  | none => .error .undefined h

def readValues (v : Nat) : Call Heap (List Word) := fun h =>
  match h.values.cell v with
  | some vals => .ok vals h
  | none => .error .undefined h

def Ptr.deref : Ptr → Call Heap Nat
  | .ref id => pure id
  | .null => throw .undefined
  | .indeterminate => throw .undefined

def modifyTable (t : Nat) (f : AttrTable → AttrTable) : Call Heap Unit := do
  let _ ← readTable t
  modify fun h => { h with tables := h.tables.modify t f }

def modifyValues (v : Nat) (f : List Word → List Word) : Call Heap Unit := do
  let _ ← readValues v
  modify fun h => { h with values := h.values.modify v f }

def newTable : Call Heap Nat := fun h =>
  .ok h.tables.next { h with tables := h.tables.alloc ⟨[], .null, [], true⟩ }

def newValues (vals : List Word) : Call Heap Nat := fun h =>
  .ok h.values.next { h with values := h.values.alloc vals }

def freeTable (t : Nat) : Call Heap Unit := do
  let _ ← readTable t
  modify fun h => { h with tables := h.tables.free t }

def freeValues (v : Nat) : Call Heap Unit := do
  let _ ← readValues v
  modify fun h => { h with values := h.values.free v }

def AttrTable.push (e : Entry) (tb : AttrTable) : AttrTable := { tb with attrMap := tb.attrMap ++ [e] }

/-- `simple_find` -/
def AttrTable.simpleFind (tb : AttrTable) (target : Word) : Option Entry := tb.attrMap.find? fun e => target = e.name

/-! ## Destruction

Calls nest as deep as the stack has room, `stack` of them.
-/

/-- `delete_entry`; deleting a null pointer does nothing. -/
def deleteEntry (deleteTable : Nat → Call Heap Unit) (e : Entry) : Call Heap Unit :=
  if e.isAlias then pure ()
  else if e.type = .container then
    match e.attributes with
    | .null => pure ()
    | .ref c => deleteTable c
    | .indeterminate => throw .undefined
  else
    match e.attr with
    | .null => pure ()
    | .ref v => freeValues v
    | .indeterminate => throw .undefined

/-- `delete_attr_table`, before the entries are taken out of the table -/
def deleteEntries (deleteTable : Nat → Call Heap Unit) : List Entry → Call Heap Unit
  | [] => pure ()
  | e :: es => do
    deleteEntry deleteTable e
    deleteEntries deleteTable es

/-- The destructor. No access to a table that is being destroyed is defined. -/
def deleteTable : Nat → Nat → Call Heap Unit
  | 0, _ => throw .undefined
  | stack + 1, t => do
    let tb ← readTable t
    freeTable t
    deleteEntries (deleteTable stack) tb.attrMap

/-! ## Appending -/

def alreadyOtherType (name : Word) : Fault :=
  .Error ("An attribute called `" ++ String.ofList name ++ "' already exists but is of a different type")

def alreadyContainer (name : Word) : Fault :=
  .Error ("An attribute called `" ++ String.ofList name ++ "' already exists but is a container.")

/-- `append_attr`; the form with one value passes a list of one. -/
def appendAttr (t : Nat) (name type : Word) (values : List Word) : Call Heap Nat := do
  let lname := removeSpaceEncoding name
  let tb ← readTable t
  match tb.simpleFind lname with
  | some e =>
    if e.type ≠ stringToAttrType type then throw (alreadyOtherType name)
    else if e.type = .container then throw (alreadyContainer name)
    else
      let v ← e.attr.deref
      modifyValues v fun old => old ++ values
      let vals ← readValues v
      pure vals.length
  | none =>
    let v ← newValues values
    modifyTable t (AttrTable.push ⟨lname, stringToAttrType type, false, [], true, .null, .ref v⟩)
    pure values.length

def alreadyThere1 (name : Word) : Fault :=
  .Error ("There already exists a container called `" ++ String.ofList name ++ "' in this attribute table. (1)")

/-- `set_name` -/
def AttrTable.setName (n : Word) (tb : AttrTable) : AttrTable := { tb with dName := removeSpaceEncoding n }

/-- `append_container` for a given table -/
def appendTable (t at_ : Nat) (name : Word) : Call Heap Nat := do
  let lname := removeSpaceEncoding name
  let tb ← readTable t
  match tb.simpleFind name with
  | some _ => throw (alreadyThere1 name)
  | none =>
    modifyTable at_ (AttrTable.setName lname)
    modifyTable t (AttrTable.push ⟨lname, .container, false, [], true, .ref at_, .null⟩)
    modifyTable at_ fun tb => { tb with dParent := .ref t }
    pure at_

/-- `catch (Error &e)` -/
def catchError {α : Type} (x : Call Heap α) (handler : String → Call Heap α) : Call Heap α := fun h =>
  match x h with
  | .error (.Error msg) h' => handler msg h'
  | r => r

/-- `append_container` for a new table. It has no entries yet when it is deleted again. -/
def appendContainer (t : Nat) (name : Word) : Call Heap Nat := do
  -- the call of a virtual function reads the object
  let _ ← readTable t
  let newAt ← newTable
  catchError (appendTable t newAt name) fun msg => do
    freeTable newAt
    throw (.Error msg)

/-! ## Searching -/

/-- `simple_find_container`; every caller reads through what it returns, unless that is null. -/
def simpleFindContainer (t : Nat) (target : Word) : Call Heap (Option Nat) := do
  let tb ← readTable t
  if tb.dName = target then pure (some t)
  else
    match tb.attrMap.find? fun e => e.type = .container && target = e.name with
    | none => pure none
    | some e =>
      match e.attributes with
      | .null => pure none
      | .ref c => pure (some c)
      | .indeterminate => throw .undefined

/-- The parts of a name between its dots. -/
def dotParts : Word → List Word
  | [] => [[]]
  | c :: cs =>
    if c = '.' then [] :: dotParts cs
    else match dotParts cs with
      | [] => [[c]]
      | part :: parts => (c :: part) :: parts

/-- `find_container` takes the name apart at the first dot and goes on with the rest. -/
def findContainerParts : Nat → List Word → Call Heap (Option Nat)
  | _, [] => pure none
  | t, [target] => simpleFindContainer t target
  | t, container :: parts => do
    let at_ ← simpleFindContainer t container
    match at_ with
    | none => pure none
    | some a => findContainerParts a parts

def findContainer (t : Nat) (target : Word) : Call Heap (Option Nat) := findContainerParts t (dotParts target)

/-- The loop of `recurrsive_find` over the entries from some place on. -/
def recurrsiveFindFrom (recurrsiveFind : Nat → Call Heap (Option Entry)) (target : Word) :
    List Entry → Call Heap (Option Entry)
  | [] => pure none
  | e :: es =>
    if target = e.name then pure (some e)
    else if e.type = .container then do
      let c ← e.attributes.deref
      let found ← recurrsiveFind c
      match found with
      | some f => pure (some f)
      | none => recurrsiveFindFrom recurrsiveFind target es
    else recurrsiveFindFrom recurrsiveFind target es

/-- The entry at the location that is returned. -/
def recurrsiveFind (target : Word) : Nat → Nat → Call Heap (Option Entry)
  | 0, _ => throw .undefined
  | stack + 1, t => do
    let tb ← readTable t
    recurrsiveFindFrom (recurrsiveFind target stack) target tb.attrMap

/-- `find`. No entry is found when no table is, and when the location is the end of the table. -/
def find (stack t : Nat) (target : Word) : Call Heap (Option Entry) :=
  match (dotParts target).reverse with
  | field :: container :: parts => do
    let at_ ← findContainerParts t (container :: parts).reverse
    match at_ with
    | none => pure none
    | some a =>
      let tb ← readTable a
      pure (tb.simpleFind field)
  | _ => recurrsiveFind target stack t

/-! ## Deleting -/

/-- `del_attr`. An assertion that fails ends the program. -/
def delAttr (stack t : Nat) (name : Word) (i : Int) : Call Heap Unit := do
  let lname := removeSpaceEncoding name
  let tb ← readTable t
  match tb.simpleFind lname with
  | none => pure ()
  | some e =>
    if i = -1 then
      modifyTable t fun tb => { tb with attrMap := tb.attrMap.eraseP fun e => lname = e.name }
      deleteEntry (deleteTable stack) e
    else if e.type = .container then pure ()
    else
      let sxp ← e.attr.deref
      let vals ← readValues sxp
      if 0 ≤ i ∧ i < vals.length then modifyValues sxp fun vals => vals.eraseIdx i.toNat
      else throw .undefined

/-- `del_attr_table` for the entry at place `iter`. The entry holds nothing when it is deleted. -/
def delAttrTable (t iter : Nat) : Call Heap Unit := do
  let tb ← readTable t
  match tb.attrMap[iter]? with
  | none => throw .undefined
  | some e =>
    if e.type ≠ .container then pure ()
    else
      match e.attributes with
      | .null => pure ()
      | .ref c => modifyTable c fun tb => { tb with dParent := .null }
      | .indeterminate => throw .undefined
      modifyTable t fun tb => { tb with attrMap := tb.attrMap.eraseIdx iter }

/-! ## Aliases -/

def alreadyThere2 (name : Word) : Fault :=
  .Error ("There already exists a container called `" ++ String.ofList name ++ "in this attribute table. (2)")

def addContainerAlias (t : Nat) (name : Word) (src : Nat) : Call Heap Unit := do
  let lname := removeSpaceEncoding name
  let tb ← readTable t
  match tb.simpleFind lname with
  | some _ => throw (alreadyThere2 name)
  | none =>
    let srcTable ← readTable src
    modifyTable t (AttrTable.push ⟨lname, .container, true, srcTable.dName, true, .ref src, .null⟩)

def couldNotFind (source : Word) : Fault :=
  .Error ("Could not find the attribute `" ++ String.ofList source ++ "' in the attribute object.")

def valueAtTop : Fault :=
  .Error ("A value cannot be aliased to the top level of the DAS;\nOnly containers may be present at that level of the DAS.")

def alreadyThere3 (name : Word) : Fault :=
  .Error ("There already exists a container called `" ++ String.ofList name ++ "in this attribute table. (3)")

/-- What follows when the source is found. -/
def aliasFound (das t : Nat) (name lsource : Word) (f : Entry) : Call Heap Unit := do
  let lname := removeSpaceEncoding name
  if f.type ≠ .container ∧ t = das then throw valueAtTop
  else
    let tb ← readTable t
    match tb.simpleFind lname with
    | some _ => throw (alreadyThere3 name)
    | none =>
      modifyTable t (AttrTable.push
        { name := lname, type := f.type, isAlias := true, aliasedTo := lsource, isGlobal := true
          attributes := if f.type = .container then f.attributes else .null
          attr := if f.type = .container then .null else f.attr })

def addValueAlias (stack das t : Nat) (name source : Word) : Call Heap Unit := do
  let lsource := removeSpaceEncoding source
  let found ← find stack das lsource
  match found with
  | some f => aliasFound das t name lsource f
  | none =>
    let found ← find stack t lsource
    match found with
    | some f => aliasFound das t name lsource f
    | none => throw (couldNotFind source)

/-! ## Copies -/

def AttrTable.setParent (p : Ptr) (tb : AttrTable) : AttrTable := { tb with dParent := p }

/-- `entry::clone` for a new entry. It sets one of the two pointers, and none for an unknown type. -/
def copyEntry (copyTable : Nat → Call Heap Nat) (rhs : Entry) : Call Heap Entry :=
  match rhs.type with
  | .unknown => pure { rhs with attributes := .indeterminate, attr := .indeterminate }
  | .container =>
    if rhs.isAlias then pure { rhs with attr := .indeterminate }
    else do
      let c ← rhs.attributes.deref
      let c' ← copyTable c
      pure { rhs with attributes := .ref c', attr := .indeterminate }
  | _ =>
    if rhs.isAlias then pure { rhs with attributes := .indeterminate }
    else do
      let v ← rhs.attr.deref
      let vals ← readValues v
      let v' ← newValues vals
      pure { rhs with attributes := .indeterminate, attr := .ref v' }

/-- The second half of the loop's body in `clone`. The table of a container becomes a part of this one. -/
def pushEntry (t : Nat) (e : Entry) : Call Heap Unit := do
  modifyTable t (AttrTable.push e)
  if e.type = .container then do
    let c ← e.attributes.deref
    modifyTable c (AttrTable.setParent (.ref t))
  else pure ()

def cloneEntries (copyTable : Nat → Call Heap Nat) (t : Nat) : List Entry → Call Heap Unit
  | [] => pure ()
  | rhs :: es => do
    let e ← copyEntry copyTable rhs
    pushEntry t e
    cloneEntries copyTable t es

def AttrTable.relabel (at_ : AttrTable) (tb : AttrTable) : AttrTable :=
  { tb with dName := at_.dName, dIsGlobalAttribute := at_.dIsGlobalAttribute, dParent := .null }

/-- `AttrTable::clone` -/
def clone (copyTable : Nat → Call Heap Nat) (t at_ : Nat) : Call Heap Unit := do
  let tb ← readTable at_
  modifyTable t (AttrTable.relabel tb)
  cloneEntries copyTable t tb.attrMap

/-- The copy constructor, for a new object. The argument refers to an object. -/
def copyTable : Nat → Nat → Call Heap Nat
  | 0, _ => throw .undefined
  | stack + 1, rhs => do
    let _ ← readTable rhs
    let t ← newTable
    clone (copyTable stack) t rhs
    pure t

def AttrTable.clear (tb : AttrTable) : AttrTable := { tb with attrMap := [] }

/-- `delete_attr_table` -/
def deleteAttrTable (stack t : Nat) : Call Heap Unit := do
  let tb ← readTable t
  deleteEntries (deleteTable stack) tb.attrMap
  modifyTable t AttrTable.clear

/-- `operator=` -/
def assignTable (stack t rhs : Nat) : Call Heap Unit :=
  if t = rhs then pure ()
  else do
    deleteAttrTable stack t
    clone (copyTable stack) t rhs

def erase (stack t : Nat) : Call Heap Unit := do
  deleteAttrTable stack t
  modifyTable t fun tb => { tb with dName := [] }

/-- `set_is_global_attribute` for the entry at place `iter` -/
def setIsGlobalAttribute (t iter : Nat) (ga : Bool) : Call Heap Unit := do
  let tb ← readTable t
  match tb.attrMap[iter]? with
  | none => throw .undefined
  | some e =>
    if e.type = .container then do
      let c ← e.attributes.deref
      modifyTable c fun tb => { tb with dIsGlobalAttribute := ga }
    else modifyTable t fun tb => { tb with attrMap := tb.attrMap.set iter { e with isGlobal := ga } }

end Libdap.Dap2
