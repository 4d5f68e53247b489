import Libdap.Core.Odometer
import Libdap.Core.Settles
import Libdap.Http.Decimal

/-! # Arrays as text

The elements of an array are printed in rows, each with the indices that its elements share. A counter of the printed
elements and the indices of the row advance side by side.
-/

namespace Libdap.Ascii
open Core Constraint Http
set_option autoImplicit false

inductive Stop
  | internalErr (msg : Word)
  /-- An element at or beyond the length. -/
  | outside
  /-- The rounds do not suffice. -/
  | unfinished
  deriving DecidableEq, Repr

def separator : Word := [',', ' ']

/-- An array has a dimension, as `check_semantics` tests, and the elements that its dimensions want. -/
structure AsciiArray where
  name : Word
  fullName : Word
  /-- The sizes under the constraint. -/
  shape : List Nat
  isSimple : Bool
  sendP : Bool
  /-- What `print_ascii` prints of each element; it prints the names too where the elements are compound. -/
  elements : List Word
  hDims : shape ≠ []
  hShape : ∀ n ∈ shape, 0 < n
  hLength : elements.length = shape.prod

/-! ## The loop over the indices -/

/-- `increment_state`, from the last index on. -/
def incrementFrom : List Nat → List Nat → List Nat × Bool
  | s :: state, n :: shape =>
    if (s : Int) = n - 1 then (0 :: (incrementFrom state shape).1, (incrementFrom state shape).2)
    else ((s + 1) :: state, true)
  | state, _ => (state, false)

def incrementState (state shape : List Nat) : List Nat × Bool :=
  ((incrementFrom state.reverse shape.reverse).1.reverse, (incrementFrom state.reverse shape.reverse).2)

/-- `do { ... } while (more_indices)`, with a line end between two rounds. -/
def rounds {σ : Type} (shape : List Nat) (body : List Nat → σ → Word → Except Stop (σ × Word)) :
    Nat → List Nat → σ → Word → Except Stop Word
  | 0, _, _, _ => .error .unfinished
  | n + 1, state, s, strm => do
    let (s, strm) ← body state s strm
    let (state, moreIndices) := incrementState state shape
    if moreIndices then rounds shape body n state s (strm ++ ['\n']) else .ok strm

theorem incrementFrom_eq {state shape : List Nat} (h : List.Forall₂ (· < ·) state shape) :
    incrementFrom state shape = Odometer.step shape state := by
  induction h with
  | nil => rfl
  | @cons s n state shape hs _ ih =>
    rw [incrementFrom, Odometer.step, ih]
    by_cases hLast : s + 1 = n
    · rw [if_pos (by omega), if_pos hLast]
    · rw [if_neg (by omega), if_neg hLast]

theorem incrementState_indices {shape : List Nat} (hShape : ∀ n ∈ shape, 0 < n) (k : Nat) :
    incrementState (indices shape k) shape = (indices shape (k + 1), decide ((k + 1) % shape.prod ≠ 0)) := by
  have hPos : ∀ n ∈ shape.reverse, 0 < n := fun n hn => hShape n (List.mem_reverse.mp hn)
  rw [incrementState, indices, List.reverse_reverse, incrementFrom_eq (Odometer.digits_lt hPos k),
    Odometer.step_digits hPos, List.prod_reverse, indices]

/-- Rounds that each print a line. -/
theorem rounds_settle {σ : Type} {shape : List Nat} (body : List Nat → σ → Word → Except Stop (σ × Word))
    (hShape : ∀ n ∈ shape, 0 < n) (s : Nat → σ) (line : Nat → Word)
    (hBody : ∀ k, k < shape.prod → ∀ strm, body (indices shape k) (s k) strm = .ok (s (k + 1), strm ++ line k))
    {m k : Nat} (hk : k + m + 1 = shape.prod) (strm : Word) :
    Settles (fun n => rounds shape body n (indices shape k) (s k) strm)
      (.ok (strm ++ ['\n'].intercalate ((List.range' k (m + 1)).map line))) := by
  induction m generalizing k strm with
  | zero =>
    refine Settles.shift (Settles.always fun n => ?_)
    have hLast : (k + 1) % shape.prod = 0 := by rw [← hk, Nat.add_zero, Nat.mod_self]
    rw [rounds, hBody k (by omega), ok_bind]
    dsimp only
    rw [incrementState_indices hShape, hLast]
    simp
  | succ m ih =>
    have hRest := ih (k := k + 1) (by omega) (strm ++ line k ++ ['\n'])
    have hMore : (k + 1) % shape.prod ≠ 0 := by
      rw [Nat.mod_eq_of_lt (by omega)]
      exact Nat.succ_ne_zero k
    have hText : strm ++ ['\n'].intercalate ((List.range' k (m + 1 + 1)).map line) =
        strm ++ line k ++ ['\n'] ++ ['\n'].intercalate ((List.range' (k + 1) (m + 1)).map line) := by
      rw [List.range'_succ, List.range'_succ, List.map_cons, List.map_cons, List.intercalate_cons_cons]
      simp only [List.append_assoc]
    rw [hText]
    refine Settles.shift (hRest.of_eq fun n => ?_)
    rw [rounds, hBody k (by omega), ok_bind]
    dsimp only
    rw [incrementState_indices hShape, decide_eq_true hMore]
    rfl

/-! ## The printers -/

namespace AsciiArray

def dimensions (a : AsciiArray) : Nat := a.shape.length

def var (a : AsciiArray) (i : Nat) : Except Stop Word :=
  match a.elements[i]? with
  | some text => .ok text
  | none => .error .outside

def getShapeVector (a : AsciiArray) (n : Nat) : Except Stop (List Nat) :=
  if n < 1 ∨ a.dimensions < n then
    .error (.internalErr ("Attempt to get ".toList ++ decimal n ++ " dimensions from ".toList ++ a.name ++
      " which has only ".toList ++ decimal a.dimensions ++ "dimensions.".toList))
  else .ok (a.shape.take n)

def getNthDimSize (a : AsciiArray) (n : Nat) : Except Stop Nat :=
  match a.shape[n]? with
  | some size => .ok size
  | none =>
    .error (.internalErr ("Attempt to get dimension ".toList ++ decimal (n + 1) ++ " from \x60".toList ++ a.name ++
      "' which has ".toList ++ decimal a.dimensions ++ " dimension(s).".toList))

/-- The loop of `get_index`, from the last index on. -/
def indexFrom : List Nat → List Nat → Nat → Nat → Nat
  | i :: indices, n :: shape, multiplier, index => indexFrom indices shape (multiplier * n) (index + multiplier * n * i)
  | _, _, _, index => index

def getIndex (a : AsciiArray) (indices : List Nat) : Except Stop Nat :=
  if indices.length ≠ a.dimensions then .error (.internalErr "Index vector is the wrong size!".toList)
  else do
    let shape ← a.getShapeVector indices.length
    match indices.reverse with
    | [] => .error .outside
    | i :: rest => .ok (indexFrom rest shape.reverse 1 i)

/-- The loop of `print_vector` and of `print_row`. -/
def printLoop (a : AsciiArray) : Nat → Nat → Word → Except Stop (Nat × Word)
  | 0, index, strm => .ok (index, strm)
  | number + 1, index, strm => do
    let text ← a.var index
    a.printLoop number (index + 1) (strm ++ text ++ separator)

def printRow (a : AsciiArray) (strm : Word) (index number : Nat) : Except Stop (Nat × Word) := do
  let (index, strm) ← a.printLoop number index strm
  let text ← a.var index
  .ok (index + 1, strm ++ text)

def printVector (a : AsciiArray) (strm : Word) (printName : Bool) : Except Stop Word := do
  let strm := if printName then strm ++ a.fullName ++ separator else strm
  let size ← a.getNthDimSize 0
  let (index, strm) ← a.printLoop (size - 1) 0 strm
  let text ← a.var index
  .ok (strm ++ text)

/-- `[i]` for each index. -/
def bracketed (state : List Nat) : Word := state.flatMap fun i => '[' :: (decimal i ++ [']'])

def dimensionCount : Stop :=
  .internalErr "Dimension count is <= 1 while printing multidimensional array.".toList

def printArray (a : AsciiArray) (fuel : Nat) (strm : Word) : Except Stop Word :=
  if a.dimensions ≤ 1 then .error dimensionCount
  else do
    let shape ← a.getShapeVector (a.dimensions - 1)
    let rightmostDimSize ← a.getNthDimSize (a.dimensions - 1)
    rounds shape (fun state index strm =>
      a.printRow (strm ++ a.fullName ++ bracketed state ++ separator) index (rightmostDimSize - 1))
      fuel (List.replicate (a.dimensions - 1) 0) 0 strm

def printComplexArray (a : AsciiArray) (fuel : Nat) (strm : Word) : Except Stop Word :=
  if a.dimensions < 1 then .error dimensionCount
  else do
    let shape ← a.getShapeVector a.dimensions
    rounds shape (fun state (_ : Unit) strm => do
      let index ← a.getIndex state
      let text ← a.var index
      .ok ((), strm ++ a.fullName ++ bracketed state ++ ['\n'] ++ text))
      fuel (List.replicate a.dimensions 0) () strm

def printAscii (a : AsciiArray) (fuel : Nat) (strm : Word) (printName : Bool) : Except Stop Word :=
  if a.isSimple then
    if 1 < a.dimensions then a.printArray fuel strm else a.printVector strm printName
  else a.printComplexArray fuel strm

end AsciiArray

/-- The parts of a grid are of simple types, as `check_semantics` tests. -/
structure AsciiGrid where
  array : AsciiArray
  maps : List AsciiArray
  /-- What `projection_yields_grid` tells. -/
  yieldsGrid : Bool
  hSimple : array.isSimple = true
  hMaps : ∀ map ∈ maps, map.isSimple = true
  /-- The maps are constrained as the dimensions are. -/
  hYields : yieldsGrid = true → maps.map AsciiArray.shape = array.shape.map ([·])

namespace AsciiGrid

/-- `[map=value]` for each index. -/
def labelled : List AsciiArray → List Nat → Word → Except Stop Word
  | map :: maps, i :: state, strm => do
    let value ← map.var i
    labelled maps state (strm ++ '[' :: map.fullName ++ ['='] ++ value ++ [']'])
  | [], _ :: _, _ => .error .outside
  | _, [], strm => .ok strm

def printVector (g : AsciiGrid) (fuel : Nat) (strm : Word) (printName : Bool) : Except Stop Word :=
  match g.maps with
  | [] => .error .outside
  | map :: _ => do
    let strm ← map.printAscii fuel strm printName
    g.array.printAscii fuel (strm ++ ['\n']) printName

def printGrid (g : AsciiGrid) (fuel : Nat) (strm : Word) (printName : Bool) : Except Stop Word :=
  if g.array.dimensions ≤ 1 then .error AsciiArray.dimensionCount
  else do
    let shape ← g.array.getShapeVector (g.array.dimensions - 1)
    let rightmostDimSize ← g.array.getNthDimSize (g.array.dimensions - 1)
    match g.maps[g.array.dimensions - 1]? with
    | none => .error .outside
    | some rightmostMap =>
      let strm ← rightmostMap.printAscii fuel strm printName
      rounds shape (fun state index strm => do
        let strm ← labelled g.maps state (strm ++ g.array.fullName)
        g.array.printRow (strm ++ separator) index (rightmostDimSize - 1))
        fuel (List.replicate (g.array.dimensions - 1) 0) 0 (strm ++ ['\n'])

/-- One part of a grid that is sent as a structure. -/
def printPart (fuel : Nat) (printName : Bool) (strm : Word) (part : AsciiArray) : Except Stop Word :=
  if part.sendP then do
    let strm ← part.printAscii fuel strm printName
    .ok (strm ++ ['\n'])
  else .ok strm

def printAscii (g : AsciiGrid) (fuel : Nat) (strm : Word) (printName : Bool) : Except Stop Word :=
  if g.yieldsGrid then
    if 1 < g.array.dimensions then g.printGrid fuel strm printName else g.printVector fuel strm printName
  else do
    let strm ← g.maps.foldlM (printPart fuel printName) strm
    printPart fuel printName strm g.array

end AsciiGrid

end Libdap.Ascii
