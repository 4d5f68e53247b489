import Libdap.Core.Int32
import Libdap.Core.Odometer
import Libdap.Http.Decimal

/-! # Arrays of a file

A constraint selects a start, a stride and a count of each dimension. `read` fills the array from the selected elements of
the dataset on one of four paths: records, strings of variable length, references and all others.
-/

namespace Libdap.Hdf5
open Core Constraint Http
set_option autoImplicit false

/-- Arithmetic of `int` has no result beyond the type. -/
def int (n : Nat) : Except Fault Nat := if (n : Int) ≤ INT_MAX then .ok n else .error .undefined

structure Dimension where
  size : Int
  start : Int
  stride : Int
  stop : Int
  deriving DecidableEq

/-- What `format_constraint` writes for a dimension, and its unconstrained size. -/
structure Slab where
  dim : Nat
  offset : Nat
  step : Nat
  count : Nat
  deriving DecidableEq

def Dimension.slab (d : Dimension) : Slab :=
  ⟨d.size.toNat, d.start.toNat, d.stride.toNat, ((d.stop - d.start) / d.stride + 1).toNat⟩

def formatDimension (d : Dimension) : Except Fault Slab :=
  let (start, stride, stop) := (d.start, d.stride, d.stop)
  if stride ≤ 0 ∨ start < 0 ∨ stop < 0 ∨ stop < start then
    .error (.Error s!"Array/Grid hyperslab indices are bad: [{start}:{stride}:{stop}]")
  else .ok d.slab

/-- `format_constraint`: the vectors and the number of elements. -/
def formatConstraint (dims : List Dimension) : Except Fault (Nat × List Slab) := do
  let slabs ← dims.mapM formatDimension
  let nels ← int (slabs.map Slab.count).prod
  .ok (nels, slabs)

/-- `update_length`, as each dimension is appended. -/
def updateLength (sizes : List Nat) : Except Fault Nat :=
  sizes.foldlM (fun length size => int (length * size)) 1

/-! ## Linear indices -/

/-- The inner loop of `linearize_multi_dimensions`, from the last dimension on. -/
def placeFrom : List Slab → List Nat → Nat → Nat → Except Fault Nat
  | s :: slabs, tempCount :: counts, tempDim, arrayIndex => do
    let steps ← int ((tempCount - 1) * s.step)
    let index ← int (s.offset + steps)
    let tempIndex ← int (index * tempDim)
    let arrayIndex ← int (arrayIndex + tempIndex)
    let tempDim ← int (tempDim * s.dim)
    placeFrom slabs counts tempDim arrayIndex
  | _, _, _, arrayIndex => .ok arrayIndex

/-- The loop that adds to the counts. -/
def advance : List Nat → List Nat → List Nat
  | tempCount :: tempCounts, count :: counts =>
    if tempCount < count then (tempCount + 1) :: tempCounts else 1 :: advance tempCounts counts
  | tempCounts, _ => tempCounts

/-- The outer loop, with the number of elements left. -/
def picksFrom (slabs : List Slab) (room : Nat) : Nat → List Nat → List Nat → Except Fault (List Nat)
  | 0, _, picks => .ok picks
  | left + 1, tempCounts, picks =>
    if picks.length < room then do
      let arrayIndex ← placeFrom slabs.reverse tempCounts.reverse 1 0
      picksFrom slabs room left (advance tempCounts (slabs.map Slab.count)) (picks ++ [arrayIndex])
    else .error .outOfBounds

/-- `linearize_multi_dimensions` with the size of `picks`. -/
def linearizeMultiDimensions (slabs : List Slab) (room : Nat) : Except Fault (Nat × List Nat) := do
  let total ← (slabs.map Slab.dim).foldlM (fun total size => int (total * size)) 1
  let totalEle ← (slabs.map Slab.count).foldlM (fun totalEle count => int (totalEle * count)) 1
  let picks ← picksFrom slabs room totalEle (List.replicate slabs.length 1) []
  .ok (total, picks)

/-! ## Data types and elements -/

/-- The data types of arrays; `variableString` has the class of strings too. -/
inductive DataType
  | int8 | uint8 | int16 | uint16 | int32 | uint32 | float32 | float64
  | fixedString (size : Nat) (h : 0 < size)
  | variableString | objectReference | regionReference | compound

/-- `H5Tget_size` of the types that are read as bytes. -/
def DataType.size : DataType → Nat
  | int8 | uint8 => 1
  | int16 | uint16 => 2
  | int32 | uint32 | float32 => 4
  | float64 => 8
  | fixedString size _ => size
  | _ => 0

def getDapType : DataType → String
  | .uint8 => "Byte"
  | .int8 | .int16 => "Int16"
  | .uint16 => "UInt16"
  | .int32 => "Int32"
  | .uint32 => "UInt32"
  | .float32 => "Float32"
  | .float64 => "Float64"
  | .fixedString _ _ | .variableString => "String"
  | .objectReference | .regionReference => "Url"
  | .compound => "Structure"

/-- The bytes that the variable of the array takes for an element. -/
def DataType.width : DataType → Nat
  | int8 => 2
  | t => t.size

/-- What a region reference selects. -/
inductive Region
  | none
  | all
  | points (buf : List (List Nat))
  | hyperslabs (bounds : List (Nat × Nat))
  deriving DecidableEq

abbrev Bytes := List UInt8

/-- An element as it stands in the file. -/
inductive Element
  | bytes (b : Bytes)
  | string (s : Option Word)
  | object (name : Word)
  | region (target : Option (Word × Region))
  | record (fields : Word)
  deriving DecidableEq

def Element.Fits : DataType → Element → Prop
  | .variableString, .string _ | .objectReference, .object _ | .regionReference, .region _ | .compound, .record _ =>
    True
  | t, .bytes b => 0 < t.size ∧ b.length = t.size
  | _, _ => False

/-- An element of the array. -/
inductive Value
  | number (b : Bytes)
  | text (s : Word)
  | record (fields : Word)
  deriving DecidableEq

/-- A string up to its first zero byte. -/
def cString (b : Bytes) : Word := (b.takeWhile (· ≠ 0)).map fun c => Char.ofNat c.toNat

/-- A signed byte as a short integer, the low byte first. -/
def toShort (c : UInt8) : Bytes := [c, if c < 128 then 0 else 255]

def bracketed (indices : List Nat) : Word := indices.flatMap fun i => '[' :: (decimal i ++ [']'])

/-- The text of a region reference; a null reference and a selection of none or all have no text. -/
def regionText : Option (Word × Region) → Word
  | some (varname, .points buf) => [','].intercalate (buf.map fun point => varname ++ bracketed point)
  | some (varname, .hyperslabs bounds) =>
    varname ++ bounds.flatMap fun (first, last) => '[' :: (decimal first ++ ':' :: (decimal last ++ [']']))
  | _ => []

/-- What an element of the file is in the array. -/
def toValue : DataType → Element → Value
  | .int8, .bytes b => .number (b.flatMap toShort)
  | .fixedString _ _, .bytes b => .text (cString b)
  | _, .bytes b => .number b
  | _, .string s => .text (s.getD [])
  | _, .object name => .text name
  | _, .region target => .text (regionText target)
  | _, .record fields => .record fields

/-! ## Files -/

def Dimension.Legal (d : Dimension) : Prop := 0 ≤ d.start ∧ d.start ≤ d.stop ∧ d.stop < d.size ∧ 0 < d.stride

/-- The indices that are selected of a dimension. -/
def Slab.indices (s : Slab) : List Nat := (List.range s.count).map fun i => s.offset + i * s.step

/-- The places of the selected elements, in row-major order. -/
def places (slabs : List Slab) : List Nat := (tuples (slabs.map Slab.indices)).map (flat (slabs.map Slab.dim))

def Slab.Inside (s : Slab) : Prop := 0 < s.step ∧ 0 < s.count ∧ s.offset + (s.count - 1) * s.step < s.dim

/-- A dataset as `H5Dread` delivers it, whole or by a hyperslab: the elements in row-major order. -/
structure DataSet (t : DataType) (dims : List Nat) where
  elements : List Element
  hyperslab : List Slab → List Element
  hFits : ∀ e ∈ elements, Element.Fits t e
  hLength : elements.length = dims.prod
  hSlab : ∀ slabs : List Slab, slabs.map Slab.dim = dims → (∀ s ∈ slabs, s.Inside) →
    hyperslab slabs = (places slabs).filterMap (elements[·]?)

def Element.raw : Element → Bytes
  | .bytes b => b
  | _ => []

def fileBytes (elements : List Element) : Bytes := elements.flatMap Element.raw

/-! ## Reading -/

namespace DataSet
variable {t : DataType} {dims : List Nat}

/-- `m_array_of_structure`; the fields of a record read all of them and take the one at the record's index. -/
def arrayOfStructure (ds : DataSet t dims) (nelms : Nat) (slabs : List Slab) : Except Fault (List Value) := do
  let (totalElems, picks) ← linearizeMultiDimensions slabs nelms
  picks.mapM fun arrayIndex =>
    if arrayIndex < totalElems then
      match ds.elements[arrayIndex]? with
      | some e => .ok (toValue t e)
      | none => .error .outOfBounds
    else .error .outOfBounds

/-- `rbuf[offset[0] + i * step[0]]` -/
def byFirst (ds : DataSet t dims) (slabs : List Slab) (i : Nat) : Except Fault Element :=
  match slabs with
  | [] => .error .outOfBounds
  | s :: _ =>
    match ds.elements[s.offset + i * s.step]? with
    | some e => .ok e
    | none => .error .outOfBounds

/-- `m_array_of_reference` -/
def arrayOfReference (ds : DataSet t dims) (nelms : Nat) (slabs : List Slab) : Except Fault (List Value) :=
  (List.range nelms).mapM fun i => do
    let reference ← ds.byFirst slabs i
    .ok (toValue t reference)

def strlen : Element → Nat
  | .string (some s) => s.length
  | _ => 0

/-- `strncpy` into a buffer of zeros. -/
def copied (sizeMax : Nat) : Element → Word
  | .string (some s) => s.take sizeMax
  | _ => []

/-- `read_vlen_string`: the array has as many strings as the dataset. -/
def readVlenString (ds : DataSet t dims) (nelms : Nat) (slabs : List Slab) : Except Fault (List Value) := do
  let sizeMax := ds.elements.foldl (fun sizeMax e => max sizeMax (strlen e)) 0
  let strings ← (List.range nelms).mapM fun strindex => do
    let string ← ds.byFirst slabs strindex
    .ok (Value.text (copied sizeMax string))
  .ok (strings ++ List.replicate (ds.elements.length - nelms) (.text []))

/-- `get_strdata` -/
def getStrdata (allbuf : Bytes) (elesize strindex : Nat) : Except Fault Word :=
  let string := rowAt allbuf (strindex * elesize) elesize
  if (0 : UInt8) ∈ string ∨ string.length = elesize then .ok (cString string) else .error .outOfBounds

/-- `val2buf` of numbers. -/
def numbers (val : Bytes) (length width : Nat) : Except Fault (List Value) :=
  if length * width ≤ val.length then .ok ((List.range length).map fun i => .number (rowAt val (i * width) width))
  else .error .outOfBounds

/-- `m_intern_plain_array_data` -/
def internPlainArrayData (ds : DataSet t dims) (length : Nat) (convbuf : Bytes) : Except Fault (List Value) :=
  match t with
  | .fixedString elesize _ => do
    let strings ← (List.range ds.elements.length).mapM (getStrdata convbuf elesize)
    if length ≤ strings.length then .ok ((strings.take length).map Value.text) else .error .outOfBounds
  | t => numbers convbuf length t.width

/-- `convbuf2[i] = (signed char) convbuf[i]` -/
def shortAt (convbuf : Bytes) (i : Nat) : Except Fault Bytes :=
  match convbuf[i]? with
  | some c => .ok (toShort c)
  | none => .error .outOfBounds

def shorts (convbuf : Bytes) (n : Nat) : Except Fault Bytes := do
  let bytes ← (List.range n).mapM (shortAt convbuf)
  .ok bytes.flatten

def isInt8 : DataType → Bool
  | .int8 => true
  | _ => false

def isVariableStr : DataType → Bool
  | .variableString => true
  | _ => false

def read (ds : DataSet t dims) (dimensions : List Dimension) (length : Nat) : Except Fault (List Value) := do
  let (nelms, slabs) ← formatConstraint dimensions
  if getDapType t = "Structure" then ds.arrayOfStructure nelms slabs
  else if getDapType t = "Url" then ds.arrayOfReference nelms slabs
  else if isVariableStr t then ds.readVlenString nelms slabs
  else if nelms = ds.elements.length then
    if isInt8 t then do
      let convbuf2 ← shorts (fileBytes ds.elements) nelms
      ds.internPlainArrayData length convbuf2
    else ds.internPlainArrayData length (fileBytes ds.elements)
  else if getDapType t = "Int8" then do
    let convbuf2 ← shorts (fileBytes (ds.hyperslab slabs)) (nelms * t.size)
    ds.internPlainArrayData length convbuf2
  else ds.internPlainArrayData length (fileBytes (ds.hyperslab slabs))

/-- The array is built with the dataset's dimensions, constrained and read. -/
def load (ds : DataSet t dims) (dimensions : List Dimension) : Except Fault (List Value) := do
  let _ ← updateLength dims
  let length ← updateLength (dimensions.map fun d => d.slab.count)
  ds.read dimensions length

end DataSet

end Libdap.Hdf5
