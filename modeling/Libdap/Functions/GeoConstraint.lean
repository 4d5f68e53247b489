import Mathlib.Algebra.Order.Ring.Rat
import Libdap.Core.Call
import Libdap.Core.Scan

/-! # Bounding boxes

`GeoConstraint` finds the indices of a bounding box in the latitude and longitude maps of a variable. The degrees,
which the source keeps as `double`s, are rationals.
-/

namespace Libdap.Functions
open Core
set_option autoImplicit false

inductive LongitudeNotation
  | unknownNotation
  | pos
  | negPos
  deriving DecidableEq, Repr

inductive LatitudeSense
  | unknownSense
  | normal
  | inverted
  deriving DecidableEq, Repr

/-- Of a variable with elements of some type. -/
structure GeoConstraint (α : Type) where
  lat : List Rat
  lon : List Rat
  /-- `d_array_data`, once there are some. -/
  arrayData : Option (List α)
  latitudeIndexTop : Nat
  latitudeIndexBottom : Nat
  longitudeIndexLeft : Nat
  longitudeIndexRight : Nat
  boundingBoxSet : Bool
  longitudeRightmost : Bool
  longitudeNotation : LongitudeNotation
  latitudeSense : LatitudeSense
  deriving DecidableEq

def truncate (x : Rat) : Int := if x < 0 then x.ceil else x.floor

/-- The remainder has the sign of `x`. -/
def fmod (x y : Rat) : Rat := x - y * truncate (x / y)

def categorizeNotation (left right : Rat) : LongitudeNotation := if left < 0 ∨ right < 0 then .negPos else .pos

def toPosNotation (x : Rat) : Rat := if x < 0 then x + 360 else x

def toNegPosNotation (x : Rat) : Rat := if 180 < x then x - 360 else x

def transformConstraintToPosNotation (left right : Rat) : Rat × Rat := (toPosNotation left, toPosNotation right)

def transformLongitudeToPosNotation (lon : List Rat) : List Rat := lon.map toPosNotation

def transformLongitudeToNegPosNotation (lon : List Rat) : List Rat := lon.map toNegPosNotation

/-! ## Latitude -/

section
variable {κ : Type} [LinearOrder κ]

def categorizeLatitude (lat : List κ) : Except Fault LatitudeSense := do
  let first ← element lat 0
  let last ← element lat (lat.length - 1)
  pure (if first ≥ last then .normal else .inverted)

/-- The indices of `top` and `bottom`. -/
def findLatitudeIndeces (lat : List κ) (top bottom : κ) (sense : LatitudeSense) : Except Fault (Nat × Nat) :=
  let n := lat.length
  if sense = .normal then do
    let i ← scanUp (fun i => do pure (decide (top < (← element lat i)))) (n - 1) 0
    let j ← scanDown (fun j => do pure (decide (bottom > (← element lat j)))) (n - 1)
    let indexTop := if (← element lat i) = top then i else if i - 1 > 0 then i - 1 else 0
    let indexBottom := if (← element lat j) = bottom then j else if j + 1 < n - 1 then j + 1 else n - 1
    pure (indexTop, indexBottom)
  else do
    let i ← scanDown (fun i => do pure (decide ((← element lat i) > top))) (n - 1)
    let j ← scanUp (fun j => do pure (decide ((← element lat j) < bottom))) (n - 1) 0
    let indexTop := if (← element lat i) = top then i else if i + 1 < n - 1 then i + 1 else n - 1
    let indexBottom := if (← element lat j) = bottom then j else if j - 1 > 0 then j - 1 else 0
    pure (indexTop, indexBottom)

end

/-! ## Longitude -/

section
variable (doubleToString : Rat → String)

def indexNotFound (value : Rat) : Fault :=
  .Error ("geogrid: Could not find an index for the longitude value '" ++ doubleToString value ++ "'")

/-- The loop that finds the index of the smallest longitude. -/
def lonOrigin (lon : List Rat) : Nat → Nat → Nat → Rat → Except Fault Nat
  | 0, _, originIndex, _ => .ok originIndex
  | n + 1, i, originIndex, smallest => do
    let current := fmod (← element lon i) 360
    if smallest > current then lonOrigin lon n (i + 1) i current else lonOrigin lon n (i + 1) originIndex smallest

/-- The indices of `left` and `right`. -/
def findLongitudeIndeces (lon : List Rat) (left right : Rat) : Except Fault (Nat × Nat) := do
  let n := lon.length
  let tLeft := fmod left 360
  let tRight := fmod right 360
  let origin ← lonOrigin lon n 0 0 (fmod (← element lon 0) 360)
  let i ← scanAround (fun i => do pure (decide (fmod (← element lon i) 360 < tLeft))) (fun i => (i + 1) % n) origin
    (indexNotFound doubleToString left) n origin
  let indexLeft := if fmod (← element lon i) 360 = tLeft then i else if i - 1 > 0 then i - 1 else 0
  let largest := (origin + n - 1) % n
  let j ← scanAround (fun i => do pure (decide (fmod (← element lon i) 360 > tRight)))
    (fun i => if i = 0 then n - 1 else i - 1) largest (indexNotFound doubleToString right) n largest
  let indexRight := if fmod (← element lon j) 360 = tRight then j else if j + 1 < n - 1 then j + 1 else n - 1
  pure (indexLeft, indexRight)

/-! ## The box -/

variable {α : Type}

def isBoundingBoxValid (lat lon : List Rat) (sense : LatitudeSense) (left top right bottom : Rat) :
    Except Fault Bool := do
  let west ← element lon 0
  let east ← element lon (lon.length - 1)
  if (left < west ∧ right < west) ∨ (left > east ∧ right > east) then pure false
  else do
    let first ← element lat 0
    let last ← element lat (lat.length - 1)
    if sense = .normal then pure (decide (¬ ((top > first ∧ bottom > first) ∨ (top < last ∧ bottom < last))))
    else pure (decide (¬ ((top < first ∧ bottom < first) ∨ (top > last ∧ bottom > last))))

def doesNotIntersect (lat lon : List Rat) (left top right bottom : Rat) : Except Fault Fault := do
  let first ← element lat 0
  let last ← element lat (lat.length - 1)
  let west ← element lon 0
  let east ← element lon (lon.length - 1)
  pure (.Error ("The bounding box does not intersect any data within this Grid or Array. The\ngeographical extent of " ++
    "these data are from latitude " ++ doubleToString first ++ " to " ++ doubleToString last ++
    "\nand longitude " ++ doubleToString west ++ " to " ++ doubleToString east ++
    " while the bounding box provided was latitude " ++ doubleToString top ++ " to " ++ doubleToString bottom ++
    "\nand longitude " ++ doubleToString left ++ " to " ++ doubleToString right))

/-- The last part of `setBoundingBox`, with the box and the map in one notation. -/
def placeBoundingBox (sense : LatitudeSense) (top left bottom right : Rat) : Call (GeoConstraint α) Unit := do
  let g ← get
  let valid ← Call.ofExcept (isBoundingBoxValid g.lat g.lon sense left top right bottom)
  if !valid then
    throw (← Call.ofExcept (doesNotIntersect doubleToString g.lat g.lon left top right bottom))
  let (indexTop, indexBottom) ← Call.ofExcept (findLatitudeIndeces g.lat top bottom sense)
  modify fun g => { g with latitudeIndexTop := indexTop, latitudeIndexBottom := indexBottom }
  let (indexLeft, indexRight) ← Call.ofExcept (findLongitudeIndeces doubleToString g.lon left right)
  modify fun g =>
    { g with longitudeIndexLeft := indexLeft, longitudeIndexRight := indexRight, boundingBoxSet := true }

def setBoundingBox (top left bottom right : Rat) : Call (GeoConstraint α) Unit := do
  if (← get).boundingBoxSet then
    throw (.Error "It is not possible to register more than one geographical constraint on a variable.")
  let sense ← Call.ofExcept (categorizeLatitude (← get).lat)
  modify fun g => { g with latitudeSense := sense, longitudeNotation := categorizeNotation left right }
  let box := if categorizeNotation left right = .negPos then transformConstraintToPosNotation left right else (left,
      right)
  let west ← Call.ofExcept (element (← get).lon 0)
  let east ← Call.ofExcept (element (← get).lon ((← get).lon.length - 1))
  if categorizeNotation west east = .negPos then
    modify fun g => { g with lon := transformLongitudeToPosNotation g.lon }
  placeBoundingBox doubleToString sense top box.1 bottom box.2

end

end Libdap.Functions
