import Libdap.Constraint.Word

/-! # Nested sequences as text

A linear sequence is printed with all its levels on one line. Its first inner row continues the line of the outer row, and
before each later one the fields of the outer rows are printed again.
-/

namespace Libdap.Ascii
open Constraint
set_option autoImplicit false

/-! ## Sequences and their rows -/

/-- A simple variable of a sequence. -/
structure Field where
  fullName : Word
  sendP : Bool
  /-- The rows have a value of it; rows that were read for the response have none of an unprojected variable. -/
  held : Bool
  hHeld : sendP → held

/-- One value for each of the variables. -/
def Field.Values (fs : List Field) : Type := { ws : List Word // ws.length = fs.length }

/-- A linear sequence has at most one sequence among its variables. -/
inductive Nest
  | leaf (fields : List Field)
  | parent (before : List Field) (child : Nest) (after : List Field)

namespace Nest

/-- The mark of a variable is a mark of the sequences around it. -/
def sendP : Nest → Bool
  | leaf fields => fields.any Field.sendP
  | parent before child after => before.any Field.sendP || child.sendP || after.any Field.sendP

def Row : Nest → Type
  | leaf fields => Field.Values fields
  | parent before child after => Field.Values before × List child.Row × Field.Values after

end Nest

/-! ## The printers -/

inductive Token
  /-- What is printed of one variable. -/
  | atom (text : Word)
  | separator
  | newline
  deriving DecidableEq, Repr

structure RowState where
  strm : List Token
  outerVars : List Word
  firstVar : Bool

namespace RowState

def separate (s : RowState) : RowState :=
  if s.firstVar then { s with firstVar := false } else { s with strm := s.strm ++ [.separator] }

def printAscii (s : RowState) (value : Word) : RowState := { s with strm := s.strm ++ [.atom value] }

/-- One round of the loop over the variables, for a simple one. -/
def printField (s : RowState) (f : Field × Word) : RowState :=
  if f.1.held then
    let s := { s with outerVars := s.outerVars ++ [f.2] }
    if f.1.sendP then s.separate.printAscii f.2 else s
  else s

def printFields (s : RowState) (fs : List Field) (ws : List Word) : RowState := (fs.zip ws).foldl printField s

end RowState

namespace AsciiSequence

/-- The variables of the outer rows, with separators between them. -/
def printLeadingVars (outerVars : List Word) (strm : List Token) : List Token :=
  (outerVars.foldl (fun s value => s.separate.printAscii value) (RowState.mk strm [] true)).strm

/-- A row beyond the last has no values, and nothing of it is printed. -/
def rowsLoop {R : Type} (printRow : R → List Word → List Token → List Token) (outerVars : List Word) :
    Nat → List R → List Token → List Token
  | _, [], strm => strm
  | i, row :: rows, strm =>
    let strm := if 0 < i ∧ outerVars ≠ [] then printLeadingVars outerVars strm else strm
    let strm := printRow row outerVars strm
    if rows = [] then strm else rowsLoop printRow outerVars (i + 1) rows (strm ++ [.newline])

def printAsciiRow : (n : Nest) → n.Row → List Word → List Token → List Token
  | .leaf fields, values, outerVars, strm => (RowState.printFields ⟨strm, outerVars, true⟩ fields values.1).strm
  | .parent before child after, (values, rows, values'), outerVars, strm =>
    let s := RowState.printFields ⟨strm, outerVars, true⟩ before values.1
    let s :=
      if child.sendP then
        let s := s.separate
        { s with strm := rowsLoop (printAsciiRow child) s.outerVars 0 rows s.strm }
      else s
    (s.printFields after values'.1).strm

def printAsciiRows (n : Nest) (rows : List n.Row) (outerVars : List Word) (strm : List Token) : List Token :=
  rowsLoop (printAsciiRow n) outerVars 0 rows strm

/-- The names of the projected variables, as a row prints their values. -/
def printNames (s : RowState) (fields : List Field) : RowState :=
  fields.foldl (fun s f => if f.sendP then s.separate.printAscii f.fullName else s) s

def printHeader : Nest → List Token → List Token
  | .leaf fields, strm => (printNames ⟨strm, [], true⟩ fields).strm
  | .parent before child after, strm =>
    let s := printNames ⟨strm, [], true⟩ before
    let s :=
      if child.sendP then
        let s := s.separate
        { s with strm := printHeader child s.strm }
      else s
    (printNames s after).strm

/-- `print_ascii` with `print_name`, of a linear sequence. -/
def printAscii (n : Nest) (rows : List n.Row) : List Token :=
  printAsciiRows n rows [] (printHeader n [] ++ [.newline])

end AsciiSequence
end Libdap.Ascii
