import Libdap.Dap2.Escaping

/-! # Variables and the searches by name

A variable is known by its address, the list of the places in the lists of parts on the way to it
from the top of the dataset. Each `var` unescapes the name that it is given once more.
-/

namespace Libdap.Dap2
open Constraint
set_option autoImplicit false

inductive Fields
  | structureType
  | sequenceType
  deriving DecidableEq, Repr

inductive Variable
  | simple (name : Word)
  | array (name : Word) (element : Variable)
  | fields (kind : Fields) (name : Word) (vars : List Variable)
  | grid (name : Word) (arrayVar : Variable) (mapVars : List Variable)

abbrev Addr := List Nat

/-- What a pointer to a variable says. -/
abbrev Found := Addr × Variable

/-- A `btp_stack`, with its top first. -/
abbrev Stack := List Addr

/-- The `send_p` of each variable. -/
abbrev Flags := Addr → Bool

namespace Variable

def name : Variable → Word
  | simple n => n
  | array n _ => n
  | fields _ n _ => n
  | grid n _ _ => n

def parts : Variable → List Variable
  | simple _ => []
  | array _ element => [element]
  | fields _ _ vars => vars
  | grid _ arrayVar mapVars => arrayVar :: mapVars

def isConstructorType : Variable → Bool
  | fields _ _ _ => true
  | grid _ _ _ => true
  | _ => false

/-- The part at an address that starts at the variable. -/
def sub : Variable → Addr → Option Variable
  | v, [] => some v
  | v, i :: a =>
    match v.parts[i]? with
    | none => none
    | some part => part.sub a

end Variable

/-- The variable at an address of the dataset. -/
def locate (vars : List Variable) : Addr → Option Variable
  | [] => none
  | i :: a =>
    match vars[i]? with
    | none => none
    | some v => v.sub a

def setFlag (a : Addr) (state : Bool) (flags : Flags) : Flags :=
  fun b => if b = a then state else flags b

mutual

def setSendP (state : Bool) : Variable → Addr → Flags → Flags
  | .simple _, here, flags => setFlag here state flags
  | .array _ element, here, flags => setFlag here state (setSendP state element (here ++ [0]) flags)
  | .fields _ _ vars, here, flags => setFlag here state (setSendPs state vars here 0 flags)
  | .grid _ arrayVar mapVars, here, flags =>
    setFlag here state
      (setSendPs state mapVars here 1 (setSendP state arrayVar (here ++ [0]) flags))

/-- The loop over the parts from place `i` on. -/
def setSendPs (state : Bool) : List Variable → Addr → Nat → Flags → Flags
  | [], _, _, flags => flags
  | v :: vs, here, i, flags =>
    setSendPs state vs here (i + 1) (setSendP state v (here ++ [i]) flags)

end

/-- The name up to its first dot and what follows the dot. -/
def splitDot (n : Word) : Option (Word × Word) :=
  if '.' ∈ n then some (n.takeWhile (· ≠ '.'), (n.dropWhile (· ≠ '.')).tail) else none

/-- The first of the variables with this name, and its place. -/
def named (name : Word) : Nat → List Variable → Option (Nat × Variable)
  | _, [] => none
  | i, v :: vs => if v.name = name then some (i, v) else named name (i + 1) vs

section
variable (unset : Word)

/-- `Grid::var` on the name unescaped. -/
def gridVar (arrayVar : Variable) (mapVars : List Variable) (here : Addr) (name : Word) (s : Stack) :
    Option Found × Stack :=
  match named name 0 (arrayVar :: mapVars) with
  | some (i, v) => (some (here ++ [i], v), here :: s)
  | none => (none, s)

mutual

/-- `var (n, false, s)` -/
def leafVar : Variable → Addr → Word → Stack → Option Found × Stack
  | .simple _, _, _, s => (none, s)
  | .array _ element, here, n, s =>
    let name := www2id unset n
    if element.isConstructorType then
      if name = [] ∨ element.name = name then (some (here ++ [0], element), here :: s)
      else match leafVar element (here ++ [0]) name s with
        | (some found, s) => (some found, here :: s)
        | (none, s) => (none, s)
    else (some (here ++ [0], element), s)
  | .fields _ _ vars, here, n, s => leafMatch vars here 0 (www2id unset n) s
  | .grid _ arrayVar mapVars, here, n, s => gridVar arrayVar mapVars here (www2id unset n) s

/-- `Constructor::m_leaf_match` from the field at place `i` on. -/
def leafMatch : List Variable → Addr → Nat → Word → Stack → Option Found × Stack
  | [], _, _, _, s => (none, s)
  | v :: vs, here, i, name, s =>
    if v.name = name then (some (here ++ [i], v), here :: s)
    else if v.isConstructorType then
      match leafVar v (here ++ [i]) name s with
      | (some found, s) => (some found, here :: s)
      | (none, s) => leafMatch vs here (i + 1) name s
    else leafMatch vs here (i + 1) name s

end

mutual

/-- `var (n, true, s)`. The first argument bounds the calls; a call by a shorter name follows at
most three calls by one name. -/
def exactVar : Nat → Variable → Addr → Word → Stack → Option Found × Stack
  | 0, _, _, _, s => (none, s)
  | _ + 1, .simple _, _, _, s => (none, s)
  | k + 1, .array _ element, here, n, s =>
    let name := www2id unset n
    if element.isConstructorType then
      if name = [] ∨ element.name = name then (some (here ++ [0], element), here :: s)
      else match exactVar k element (here ++ [0]) name s with
        | (some found, s) => (some found, here :: s)
        | (none, s) => (none, s)
    else (some (here ++ [0], element), s)
  | k + 1, .fields _ _ vars, here, n, s => exactMatch k vars here (www2id unset n) s
  | _ + 1, .grid _ arrayVar mapVars, here, n, s => gridVar arrayVar mapVars here (www2id unset n) s

/-- `Constructor::m_exact_match`. The search for the aggregate has no stack. -/
def exactMatch : Nat → List Variable → Addr → Word → Stack → Option Found × Stack
  | 0, _, _, _, s => (none, s)
  | k + 1, vars, here, name, s =>
    match named name 0 vars with
    | some (i, v) => (some (here ++ [i], v), here :: s)
    | none =>
      match splitDot name with
      | none => (none, s)
      | some (aggregate, field) =>
        match (exactMatch k vars here (www2id unset aggregate) []).1 with
        | none => (none, s)
        | some (a, v) => exactVar k v a field (here :: s)

end

def fuel (n : Word) : Nat := 3 * n.length + 5

end

/-- A `DDS`: its variables, and the Structure that `container_name` made the active one. -/
structure DDS where
  vars : List Variable
  container : Option Found

namespace DDS

variable (unset : Word) (d : DDS)

/-- `DDS::leaf_match` from the variable at place `i` on. -/
def leafMatchFrom : List Variable → Nat → Word → Stack → Option Found × Stack
  | [], _, _, s => (none, s)
  | v :: vs, i, n, s =>
    if v.name = n then (some ([i], v), s)
    else if v.isConstructorType then
      match leafVar unset v [i] n s with
      | (some found, s) => (some found, s)
      | (none, s) => leafMatchFrom vs (i + 1) n s
    else leafMatchFrom vs (i + 1) n s

mutual

/-- `DDS::exact_match`, which looks for the aggregate, a shorter name, with `DDS::var`. -/
def exactMatchFrom : Nat → Word → Stack → Option Found × Stack
  | 0, _, s => (none, s)
  | k + 1, name, s =>
    match named name 0 d.vars with
    | some (i, v) => (some ([i], v), s)
    | none =>
      match splitDot name with
      | none => (none, s)
      | some (aggregate, field) =>
        match varFrom k aggregate s with
        | (some (a, v), s) => exactVar unset (fuel field) v a field s
        | (none, s) => (none, s)

def varFrom : Nat → Word → Stack → Option Found × Stack
  | 0, _, s => (none, s)
  | k + 1, n, s =>
    let name := www2id unset n
    match d.container with
    | some (a, container) => leafVar unset container a name s
    | none =>
      match exactMatchFrom k name s with
      | (some found, s) => (some found, s)
      | (none, s) => leafMatchFrom unset d.vars 0 name s

end

/-- `DDS::var` -/
def var (n : Word) (s : Stack) : Option Found × Stack := varFrom unset d (fuel n) n s

def mark (n : Word) (state : Bool) (flags : Flags) : Bool × Flags :=
  match var unset d n [] with
  | (none, _) => (false, flags)
  | (some (a, v), s) =>
    (true, s.foldl (fun flags p => setFlag p state flags) (setSendP state v a flags))

end DDS

end Libdap.Dap2
