import Libdap.Constraint.ArrayIndices
import Mathlib.Logic.Function.Basic

/-! # The projection clauses of a constraint expression

The clauses run one after the other on the variables of a dataset. What a name stands for, which
kind of variable it is and which arrays `DDS::mark` reaches from it do not change meanwhile.
-/

namespace Libdap.Constraint
open Core Dap2
set_option autoImplicit false

inductive Kind (V : Type)
  | array
  | grid (arrayVar : V) (mapVars : List V)
  | sequence
  | other

structure Dataset (V : Type) where
  /-- `DDS::var` -/
  var : Word → Option V
  kind : V → Kind V
  nameOf : V → String
  /-- The arrays that `DDS::mark` sets `send_p` of: those in the variable and those that it is in. -/
  marked : Word → List V

structure RowNumbers where
  starting : Int
  stride : Int
  ending : Int

structure State (V : Type) where
  arrays : V → Dap2.Array
  rows : V → RowNumbers

section
variable {V : Type} [DecidableEq V]

def onArray {α : Type} (v : V) (x : Call Dap2.Array α) : Call (State V) α :=
  Call.on (fun s => s.arrays v) (fun s a => { s with arrays := Function.update s.arrays v a }) x

def setSendP (state : Bool) : Call Dap2.Array Unit := fun a => .ok () { a with sendP := state }

/-- What `process_grid_indices` does to one map. -/
def constrainMap (index : Index) : Call Dap2.Array Unit := do
  setSendP true
  modify Array.resetConstraint
  Array.addConstraint 0 index.start index.stride index.stop

def forMaps (x : Call Dap2.Array Unit) : List V → Call (State V) Unit
  | [] => pure ()
  | v :: vs => do
    onArray v x
    forMaps x vs

/-- The loop over the indices and the maps. With a map too few the error's text takes the name of
the map behind the last one. -/
def constrainMaps : List Index → List V → Call (State V) Unit
  | [], _ => pure ()
  | _ :: _, [] => throw .undefined
  | index :: indices, v :: vs => do
    onArray v (constrainMap index)
    constrainMaps indices vs

namespace Dataset

variable (D : Dataset V)

def mark (n : Word) : Call (State V) Bool := fun s =>
  match D.var n with
  | none => .ok false s
  | some _ =>
    .ok true { s with
      arrays := fun v => if v ∈ D.marked n then { s.arrays v with sendP := true } else s.arrays v }

def processGridIndices (grid arrayVar : V) (mapVars : List V) (indices : List Index) :
    Call (State V) Unit := do
  let s ← get
  if (s.arrays arrayVar).shape.length ≠ indices.length then
    throw (.Error ("Error: The number of dimensions in the constraint for " ++ D.nameOf grid ++
      " must match the number in the grid."))
  else
    onArray arrayVar (processArrayIndices indices)
    forMaps (setSendP false) mapVars
    constrainMaps indices mapVars

/-- `Sequence::set_row_number_constraint` -/
def setRowNumberConstraint (v : V) (start stop stride : Int) : Call (State V) Unit := fun s =>
  if stop < start then
    .error (.Error "Starting row number must precede the ending row number.") s
  else .ok () { s with rows := Function.update s.rows v ⟨start, stride, stop⟩ }

def processSequenceIndices (v : V) : List Index → Call (State V) Unit
  | [] => pure ()
  | index :: indices => do
    setRowNumberConstraint v index.start index.stop index.stride
    processSequenceIndices v indices

/-- Looks at the name in front of each dot, the rightmost first; the name comes reversed. -/
def parentIsSequence : Word → Option V
  | [] => none
  | '.' :: front =>
    match D.var front.reverse with
    | none => parentIsSequence front
    | some v =>
      match D.kind v with
      | .sequence => some v
      | _ => parentIsSequence front
  | _ :: front => parentIsSequence front

def bracketProjection (n : Word) (indices : List Index) : Call (State V) Bool :=
  match D.var n with
  | none => pure false
  | some v =>
    match D.kind v with
    | .array => do
      onArray v (processArrayIndices indices)
      pure true
    | .grid arrayVar mapVars => do
      D.processGridIndices v arrayVar mapVars indices
      let _ ← D.mark n
      pure true
    | .sequence => do
      let _ ← D.mark n
      processSequenceIndices v indices
      pure true
    | .other =>
      match D.parentIsSequence n.reverse with
      | none => pure false
      | some seq => do
        processSequenceIndices seq indices
        let _ ← D.mark n
        pure true

end Dataset

def noSuchIdent (n : Word) (word : String) : Fault :=
  .Error ("Constraint expression parse error: No such " ++ word ++ " in dataset: " ++ String.ofList n)

/-- The rule `array_proj_clause`, with the values of its names and indices. -/
inductive ArrayProjClause
  | indexed (n : Word) (indices : List Index)
  | named (clause : ArrayProjClause) (n : Word)
  | namedIndexed (clause : ArrayProjClause) (n : Word) (indices : List Index)

/-- The rule `proj_clause` for a name and for an `array_projection`. Bracket indices on a name in a
selection or a function's argument act as an `array_projection` does. -/
inductive ProjClause
  | name (n : Word)
  | arrayProjection (clause : ArrayProjClause)

namespace ArrayProjClause

/-- The value of the rule. -/
def name : ArrayProjClause → Word
  | indexed n _ => truncated n
  | named clause n => truncated (clause.name ++ n)
  | namedIndexed clause n _ => truncated (clause.name ++ n)

def bracket (D : Dataset V) (n : Word) (indices : List Index) : Call (State V) Unit := do
  let found ← D.bracketProjection n indices
  if found then pure () else throw (noSuchIdent n "array, grid or sequence")

def run (D : Dataset V) : ArrayProjClause → Call (State V) Unit
  | indexed n indices => bracket D n indices
  | named clause _ => run D clause
  | namedIndexed clause n indices => do
    run D clause
    bracket D (clause.name ++ n) indices

end ArrayProjClause

def ProjClause.run (D : Dataset V) : ProjClause → Call (State V) Unit
  | name n =>
    match D.var n with
    | none => throw (noSuchIdent n "identifier")
    | some _ => do
      let _ ← D.mark n
      pure ()
  | arrayProjection clause => do
    clause.run D
    let _ ← D.mark clause.name
    pure ()

/-- The rule `projection`. -/
def projection (D : Dataset V) : List ProjClause → Call (State V) Unit
  | [] => pure ()
  | clause :: clauses => do
    clause.run D
    projection D clauses

end

end Libdap.Constraint
