import Libdap.Core.RowMajor
import Libdap.Dap2.Array
import Libdap.Functions.GeoConstraint

/-! # Grids under a bounding box

`GridGeoConstraint` cuts the box out of the array of a Grid and out of its latitude and longitude maps. A longitude range
that goes over the end of the map is read in two parts and joined, and latitudes that rise are turned around. Sizes are
natural numbers and buffers hold elements.
-/

namespace Libdap.Functions
open Core
open Dap2 (Dimension)
set_option autoImplicit false

/-- `read()` leaves the elements that the constraints select in `buf`; `cell` are the values of the data source. -/
structure GeoArray (α : Type) where
  shape : List Dimension
  cell : List Nat → α
  buf : List α
  readP : Bool

structure GeoMap where
  dim : Dimension
  buf : List Rat
  readP : Bool

structure GridGeoConstraint (α : Type) where
  geo : GeoConstraint α
  array : GeoArray α
  latitude : GeoMap
  longitude : GeoMap
  /-- `d_lat_dim`, as the place of the dimension. -/
  latDim : Nat
  lonDim : Nat
  readP : Bool

/-- The indices that the constraint on a dimension selects. -/
def indices (d : Dimension) : List Nat := (List.range d.cSize.toNat).map fun k => d.start.toNat + d.stride.toNat * k

section
variable {α : Type}

namespace GeoArray

def read (a : GeoArray α) : GeoArray α := { a with buf := (tuples (a.shape.map indices)).map a.cell, readP := true }

def addConstraint (a : GeoArray α) (i : Nat) (start stop : Int) : Except Fault (GeoArray α) :=
  match a.shape[i]? with
  | none => .error .undefined
  | some d => do
    let d ← d.addConstraint start 1 stop
    pure { a with shape := a.shape.set i d }

/-- The product of `dimension_size(i, true)` for some of the dimensions. -/
def constrainedSize (shape : List Dimension) : Nat := (shape.map fun d => d.cSize.toNat).prod

def countSizeExceptLatitudeAndLongitude (a : GeoArray α) : Nat :=
  if a.shape.length ≤ 2 then 1 else constrainedSize a.shape.dropLast.dropLast

def countDimensionsExceptLongitude (a : GeoArray α) : Nat := constrainedSize a.shape.dropLast

end GeoArray

def GeoMap.addConstraint (m : GeoMap) (start stop : Int) : Except Fault GeoMap := do
  let dim ← m.dim.addConstraint start 1 stop
  pure { m with dim := dim }

def setArrayUsingDouble (dest : GeoMap) (src : List Rat) : Except Fault GeoMap :=
  if dest.dim.cSize ≠ src.length then
    .error (.InternalErr ("The source and destination array sizes don't match (" ++ toString src.length ++ " versus " ++
      toString dest.dim.cSize ++ ")."))
  else .ok { dest with buf := src, readP := true }

/-- The elements from `index` on come first. -/
def swapVectorEnds (src : List Rat) (index : Nat) : List Rat := src.drop index ++ src.take index

/-- `transpose_vector` on a part of the vector. -/
def transposeVector (src : List Rat) (first length : Nat) : List Rat :=
  src.take first ++ (rowAt src first length).reverse ++ src.drop (first + length)

/-- `while (s_lat > -1) memcpy(tmp_data + offset + lat++ * lon_size, d_array_data + offset + s_lat-- * lon_size, lon_size);`
with `s_lat + 1` rounds. -/
def flipRows (data : List α) (offset lonSize : Nat) : Nat → Nat → List α → Except Fault (List α)
  | 0, _, tmp => .ok tmp
  | sLat + 1, lat, tmp => do
    let tmp ← memcpy tmp (offset + lat * lonSize) data (offset + sLat * lonSize) lonSize
    flipRows data offset lonSize sLat (lat + 1) tmp

/-- One row of the left part and one of the right part. -/
def joinRow (left right : List α) (leftRow rightRow i : Nat) (data : List α) : Except Fault (List α) := do
  let data ← memcpy data (i * (leftRow + rightRow)) left (i * leftRow) leftRow
  memcpy data (i * (leftRow + rightRow) + leftRow) right (i * rightRow) rightRow

/-! ## The constraint -/

/-- Latitude and longitude are the two rightmost maps, of which a Grid has one for each dimension. -/
def latLonDimensionsOk : Call (GridGeoConstraint α) Bool := do
  let g ← get
  if g.lonDim + 1 = g.array.shape.length ∧ g.latDim + 2 = g.array.shape.length then do
    modify fun g => { g with geo := { g.geo with longitudeRightmost := true } }
    pure true
  else if g.latDim + 1 = g.array.shape.length ∧ g.lonDim + 2 = g.array.shape.length then do
    modify fun g => { g with geo := { g.geo with longitudeRightmost := false } }
    pure true
  else pure false

def constrainArray (i : Nat) (start stop : Int) : Call (GridGeoConstraint α) Unit := do
  let array ← Call.ofExcept ((← get).array.addConstraint i start stop)
  modify fun g => { g with array := array }

variable [Inhabited α]

def flipLatitudeWithinArray (latLength lonLength : Nat) : Call (GridGeoConstraint α) Unit := do
  let g ← get
  let array := if g.geo.arrayData.isNone then g.array.read else g.array
  let data := g.geo.arrayData.getD array.buf
  let size := array.countSizeExceptLatitudeAndLongitude
  if size = 0 then throw .undefined
  let latLonSize := data.length / size
  let tmp ← Call.ofExcept (forFrom (fun i => flipRows data (i * latLonSize) lonLength latLength 0) size 0
    (List.replicate data.length default))
  modify fun g => { g with array := array, geo := { g.geo with arrayData := some tmp } }

def reorderDataLongitudeAxis : Call (GridGeoConstraint α) Unit := do
  let g ← get
  if !g.geo.longitudeRightmost then
    throw (.Error ("This grid does not have Longitude as its rightmost dimension, the geogrid()\n" ++
      "does not support constraints that wrap around the edges of this type of grid."))
  let lonLength := g.geo.lon.length
  let indexLeft := g.geo.longitudeIndexLeft
  let indexRight := g.geo.longitudeIndexRight
  constrainArray g.lonDim indexLeft ((lonLength : Int) - 1)
  let left := (← get).array.read.buf
  constrainArray g.lonDim 0 indexRight
  let array := (← get).array.read
  let right := array.buf
  let data ← Call.ofExcept (forFrom (joinRow left right (lonLength - indexLeft) (indexRight + 1))
    array.countDimensionsExceptLongitude 0 (List.replicate (left.length + right.length) default))
  modify fun g => { g with array := array, geo := { g.geo with arrayData := some data } }

/-- The first part of `apply_constraint_to_data`. -/
def constrainLatitude : Call (GridGeoConstraint α) Unit := do
  if (← get).geo.latitudeSense = .inverted then
    modify fun g => { g with geo := { g.geo with
      latitudeIndexTop := g.geo.latitudeIndexBottom
      latitudeIndexBottom := g.geo.latitudeIndexTop } }
  let g ← get
  if g.geo.latitudeIndexTop > g.geo.latitudeIndexBottom then
    throw (.Error ("The upper and lower latitude indices appear to be reversed. Please provide the latitude bounding " ++
      "box numbers giving the northern-most latitude first."))
  let latitude ← Call.ofExcept (g.latitude.addConstraint g.geo.latitudeIndexTop g.geo.latitudeIndexBottom)
  modify fun g => { g with latitude := latitude }
  constrainArray g.latDim g.geo.latitudeIndexTop g.geo.latitudeIndexBottom

/-- A longitude range over the end of the map becomes one from index 0 on. -/
def joinLongitudes : Call (GridGeoConstraint α) Unit := do
  let g ← get
  if g.geo.longitudeIndexLeft > g.geo.longitudeIndexRight then
    modify fun g => { g with geo := { g.geo with lon := swapVectorEnds g.geo.lon g.geo.longitudeIndexLeft } }
    reorderDataLongitudeAxis
    modify fun g => { g with geo := { g.geo with
      longitudeIndexRight := g.geo.lon.length - g.geo.longitudeIndexLeft + g.geo.longitudeIndexRight
      longitudeIndexLeft := 0 } }

def constrainLongitude : Call (GridGeoConstraint α) Unit := do
  if (← get).geo.longitudeNotation = .negPos then
    modify fun g => { g with geo := { g.geo with lon := transformLongitudeToNegPosNotation g.geo.lon } }
  let g ← get
  let longitude ← Call.ofExcept (g.longitude.addConstraint g.geo.longitudeIndexLeft g.geo.longitudeIndexRight)
  modify fun g => { g with longitude := longitude }
  constrainArray g.lonDim g.geo.longitudeIndexLeft g.geo.longitudeIndexRight

def flipLatitude : Call (GridGeoConstraint α) Unit := do
  let g ← get
  if g.geo.latitudeSense = .inverted then
    let latLength := g.geo.latitudeIndexBottom - g.geo.latitudeIndexTop + 1
    modify fun g => { g with geo := { g.geo with lat := transposeVector g.geo.lat g.geo.latitudeIndexTop latLength } }
    flipLatitudeWithinArray latLength (g.geo.longitudeIndexRight - g.geo.longitudeIndexLeft + 1)

/-- Another map is read as it is. -/
def setValues : Call (GridGeoConstraint α) Unit := do
  let g ← get
  let latitude ← Call.ofExcept (setArrayUsingDouble g.latitude
    (rowAt g.geo.lat g.geo.latitudeIndexTop (g.geo.latitudeIndexBottom - g.geo.latitudeIndexTop + 1)))
  let longitude ← Call.ofExcept (setArrayUsingDouble g.longitude
    (rowAt g.geo.lon g.geo.longitudeIndexLeft (g.geo.longitudeIndexRight - g.geo.longitudeIndexLeft + 1)))
  modify fun g => { g with latitude := latitude, longitude := longitude }
  match g.geo.arrayData with
  | some data =>
    if GeoArray.constrainedSize g.array.shape ≠ data.length then
      throw (.InternalErr "Expected data size not copied to the Grid's buffer.")
    modify fun g => { g with array := { g.array with buf := data }, readP := true }
  | none => modify fun g => { g with array := g.array.read }

def applyConstraintToData : Call (GridGeoConstraint α) Unit := do
  if !(← get).geo.boundingBoxSet then
    throw (.InternalErr
      "The Latitude and Longitude constraints must be set before calling apply_constraint_to_data().")
  constrainLatitude
  joinLongitudes
  constrainLongitude
  flipLatitude
  setValues

end

end Libdap.Functions
