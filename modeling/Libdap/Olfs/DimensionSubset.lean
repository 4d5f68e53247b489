import Libdap.Constraint.Index
import Libdap.Core.Fault
import Libdap.Olfs.JavaString

/-! # Subsets of a coverage's dimensions

A subset comes as a key-value text or as an XML element, and is printed as an argument of `grid` or as an array index.
Only one of the two constructors sets the type that the printers look at.
-/

namespace Libdap.Olfs
open Core Constraint
set_option autoImplicit false

structure WcsException where
  msg : String
  code : Nat
  locator : String
  deriving DecidableEq, Repr

inductive WcsFault
  | wcs (e : WcsException)
  | java (e : JavaException)
  deriving DecidableEq, Repr

def MISSING_PARAMETER_VALUE : Nat := 1

def INVALID_PARAMETER_VALUE : Nat := 2

/-- What Java throws by itself. -/
def orJava {α : Type} : Except JavaException α → Except WcsFault α
  | .ok a => .ok a
  | .error e => .error (.java e)

/-! ## Java's integers -/

/-- `Character.digit(c, 10)`, where `unicode` gives the digits beyond ASCII. -/
def digit (unicode : Char → Option Nat) (c : Char) : Option Nat :=
  if c.toNat < 128 then if '0' ≤ c ∧ c ≤ '9' then some (c.toNat - 48) else none else unicode c

def decimal (unicode : Char → Option Nat) (digits : Word) : Option Nat :=
  digits.foldlM (fun value c => (digit unicode c).map (value * 10 + ·)) 0

/-- `Integer.parseInt`, or nothing where it throws. -/
def parseInt (unicode : Char → Option Nat) (s : Word) : Option Int :=
  let (negative, digits) := sign s
  if digits = [] then none
  else match decimal unicode digits with
    | none => none
    | some v =>
      let v : Int := if negative then -v else v
      if -2147483648 ≤ v ∧ v ≤ 2147483647 then some v else none

/-- `String.trim` -/
def javaTrim (s : Word) : Word := ((s.dropWhile (·.toNat ≤ 32)).reverse.dropWhile (·.toNat ≤ 32)).reverse

/-! ## Subsets -/

inductive SubsetType
  | trim
  | slicePoint
  deriving DecidableEq, Repr

/-- The type is null until it is set. -/
structure DimensionSubset where
  myDimensionType : Option SubsetType
  dimensionId : Word
  trimLow : Option Word
  trimHigh : Option Word
  slicePoint : Option Word
  isArrayIndexSubset : Bool
  deriving DecidableEq, Repr

/-- An element of the request, with the texts of its children. -/
structure DimensionSubsetElement where
  name : Word
  dimension : Option Word
  slicePoint : Option Word
  trimLow : Option Word
  trimHigh : Option Word
  deriving DecidableEq, Repr

namespace DimensionSubset

variable (unicode : Char → Option Nat)

def isQuoteOrBlank (c : Char) : Bool := c = ' ' || c = '\t' || c = '"' || c = '\''

def trimQuotesAndWhiteSpace (s : Word) : Word :=
  ((s.dropWhile isQuoteOrBlank).reverse.dropWhile isQuoteOrBlank).reverse

def isArraySubsetString (subsetStr : Word) : Bool := subsetStr = ['*'] || (parseInt unicode subsetStr).isSome

def mixed : WcsException :=
  ⟨"Subset syntax error! You cannot mix array index (integer valued) subsetting" ++
    "with value based (either float or time string valued) subsetting in the same " ++ "subset clause.",
    INVALID_PARAMETER_VALUE, "subset"⟩

/-- Whether the bounds of a trim are indices. -/
def trimIsArraySubset (trimLow trimHigh : Word) : Except WcsFault Bool :=
  if isArraySubsetString unicode trimLow then
    if isArraySubsetString unicode trimHigh then .ok true else .error (.wcs mixed)
  else if isArraySubsetString unicode trimHigh then .error (.wcs mixed)
  else .ok false

/-- An index, or -1. -/
def indexOrNone (s : Word) (c : Char) : Int :=
  match indexOf s c 0 with
  | some i => i
  | none => -1

/-- The constructor for `dim(x)` and `dim(x,y)`. -/
def ofKvp (kvpSubsetString : Word) : Except WcsFault DimensionSubset := do
  let leftParen := indexOrNone kvpSubsetString '('
  let rghtParen := indexOrNone kvpSubsetString ')'
  let s ← orJava (substring kvpSubsetString 0 leftParen)
  let intervalOrPoint ← orJava (substring kvpSubsetString (leftParen + 1) rghtParen)
  if intervalOrPoint.contains ',' then
    let commaIndex := indexOrNone intervalOrPoint ','
    let low ← orJava (substring intervalOrPoint 0 commaIndex)
    let high ← orJava (substring intervalOrPoint (commaIndex + 1) intervalOrPoint.length)
    let trimLow := trimQuotesAndWhiteSpace low
    let trimHigh := trimQuotesAndWhiteSpace high
    let isArray ← trimIsArraySubset unicode trimLow trimHigh
    .ok ⟨some .trim, s, some trimLow, some trimHigh, none, isArray⟩
  else
    let slicePoint := trimQuotesAndWhiteSpace intervalOrPoint
    .ok ⟨some .slicePoint, s, none, none, some slicePoint, isArraySubsetString unicode slicePoint⟩

def DimensionSlice : Word := "DimensionSlice".toList

def DimensionTrim : Word := "DimensionTrim".toList

/-- A bound of an element; a missing one is a star. -/
def boundOf (child : Option Word) : Word :=
  trimQuotesAndWhiteSpace (match child with | none => ['*'] | some text => javaTrim text)

/-- The constructor for an element, in which the type stays null. -/
def ofElement (e : DimensionSubsetElement) : Except WcsFault DimensionSubset :=
  match e.dimension with
  | none =>
    .error (.wcs ⟨"Missing wcs:Dimension element in wcs:DimensionSubsetType.", MISSING_PARAMETER_VALUE,
      "wcs:Dimension"⟩)
  | some dimension =>
    let id := javaTrim dimension
    if e.name = DimensionSlice then
      match e.slicePoint with
      | none =>
        .error (.wcs ⟨"Missing wcs:SlicePoint element in wcs:DimensionSlice.", MISSING_PARAMETER_VALUE,
          "wcs:SlicePoint"⟩)
      | some point =>
        let slicePoint := trimQuotesAndWhiteSpace (javaTrim point)
        .ok ⟨none, id, none, none, some slicePoint, isArraySubsetString unicode slicePoint⟩
    else if e.name = DimensionTrim then do
      let trimLow := boundOf e.trimLow
      let trimHigh := boundOf e.trimHigh
      let isArray ← trimIsArraySubset unicode trimLow trimHigh
      .ok ⟨none, id, some trimLow, some trimHigh, none, isArray⟩
    else .error (.wcs ⟨"Unrecognized wcs:DimensionSubsetType.", INVALID_PARAMETER_VALUE, "wcs:DimensionSubset"⟩)

/-- A bound of an element; a star is left out. -/
def bound (trim : Word) : Option Word := if trim = ['*'] then none else some trim

/-- Nothing where the method returns null. -/
def getDimensionSubsetElement (ds : DimensionSubset) : Option DimensionSubsetElement :=
  match ds.trimLow, ds.trimHigh, ds.slicePoint with
  | some low, some high, _ => some ⟨DimensionTrim, some ds.dimensionId, none, bound low, bound high⟩
  | _, _, some point => some ⟨DimensionSlice, some ds.dimensionId, some point, none, none⟩
  | _, _, none => none

/-- What is appended to a `StringBuilder`. -/
def appended (s : Option Word) : Word := s.getD "null".toList

def getDapGridValueConstraint (ds : DimensionSubset) : Except WcsFault Word :=
  if ds.isArrayIndexSubset then .ok []
  else match ds.myDimensionType with
    | none => .error (.java .nullPointer)
    | some .trim => .ok ('"' :: (appended ds.trimLow ++ "<=".toList ++ ds.dimensionId ++ "<=".toList ++
      appended ds.trimHigh ++ ['"']))
    | some .slicePoint => .ok ('"' :: (ds.dimensionId ++ '=' :: (appended ds.slicePoint ++ ['"'])))

/-- The second test for a star comes after the low star has been replaced. -/
def getDapArrayIndexConstraint (ds : DimensionSubset) : Except WcsFault Word :=
  if ds.isArrayIndexSubset then
    match ds.myDimensionType with
    | none => .error (.java .nullPointer)
    | some .trim =>
      match ds.trimLow, ds.trimHigh with
      | some low, some high =>
        let lowIndex := if low = ['*'] then ['0'] else low
        if high = ['*'] ∧ lowIndex = ['*'] then .ok "[*]".toList
        else .ok ('[' :: (lowIndex ++ ":1:".toList ++ high ++ [']']))
      | _, _ => .error (.java .nullPointer)
    | some .slicePoint => .ok ('[' :: (appended ds.slicePoint ++ [']']))
  else .ok []

end DimensionSubset

end Libdap.Olfs

/-! ## The constraint expression of a coverage request

Value subsets are the arguments of a call of `grid`. Index subsets are parked on the coordinates and read from them in
the order of the coordinates.
-/

namespace Libdap.Olfs
open Core Constraint
set_option autoImplicit false

structure DomainCoordinate where
  name : Word
  dapID : Word
  units : Word
  arraySubset : Option Word
  deriving DecidableEq, Repr

/-- The coordinates are kept by their names, and handed out without array subsets. Names and DAP ids are parts of a
constraint expression. -/
structure CoverageDescription where
  fields : List Word
  dapGridArrayId : Word → Option Word
  domainCoordinates : List DomainCoordinate
  named : ∀ field ∈ fields, field ≠ [] ∧ ',' ∉ field
  identified : ∀ field ∈ fields, ∃ id, dapGridArrayId field = some id ∧ id ≠ [] ∧ ',' ∉ id
  distinct : (domainCoordinates.map (·.name)).Nodup
  fresh : ∀ dc ∈ domainCoordinates, dc.arraySubset = none

/-- A subset of a request; a temporal one has units. -/
structure RequestedSubset extends DimensionSubset where
  units : Option Word
  deriving DecidableEq, Repr

/-- The subsets in the order in which the map gives them. -/
structure GetCoverageRequest where
  dimensionSubsets : List RequestedSubset
  distinct : (dimensionSubsets.map (·.dimensionId)).Nodup

section
variable (timePosition : Word → Word → Except WcsFault Word)

/-- The value constraint of a temporal subset, where `timePosition` gives a position in the units. -/
def temporalConstraint (units : Word) (ds : DimensionSubset) : Except WcsFault Word :=
  if ds.isArrayIndexSubset then .ok []
  else match ds.myDimensionType, ds.trimLow, ds.trimHigh, ds.slicePoint with
    | some .trim, some low, some high, _ => do
      let beginPosition ← timePosition units low
      let endPosition ← timePosition units high
      .ok ('"' :: (beginPosition ++ "<=".toList ++ ds.dimensionId ++ "<=".toList ++ endPosition ++ ['"']))
    | some .slicePoint, _, _, some point => do
      let position ← timePosition units point
      .ok ('"' :: (ds.dimensionId ++ '=' :: (position ++ ['"'])))
    | _, _, _, _ => .error (.java .nullPointer)

namespace RequestedSubset

def getDapGridValueConstraint (s : RequestedSubset) : Except WcsFault Word :=
  match s.units with
  | none => s.toDimensionSubset.getDapGridValueConstraint
  | some units => temporalConstraint timePosition units s.toDimensionSubset

/-- The constraint of the subset's own kind. -/
def constraint (s : RequestedSubset) : Except WcsFault Word :=
  if s.isArrayIndexSubset then s.getDapArrayIndexConstraint else s.getDapGridValueConstraint timePosition

end RequestedSubset

/-! ## The expression -/

def badSubsetting : WcsException := ⟨"Bad subsetting request", INVALID_PARAMETER_VALUE, "wcs:dimension"⟩

/-- Every subset must name a coordinate. -/
def checkDimensions (domainCoordinates : List DomainCoordinate) : List RequestedSubset → Except WcsFault Unit
  | [] => .ok ()
  | ds :: rest =>
    match domainCoordinates.find? (·.name = ds.dimensionId) with
    | none => .error (.wcs badSubsetting)
    | some _ => checkDimensions domainCoordinates rest

structure Clauses where
  ssfGridSubsetClause : Word
  arraySubset : Bool
  domainCoordinates : List DomainCoordinate
  deriving DecidableEq, Repr

def setArraySubset (dimensionId clause : Word) (dc : DomainCoordinate) : DomainCoordinate :=
  if dc.name = dimensionId then { dc with arraySubset := some clause } else dc

/-- An array subset is parked on its coordinate, which is there since the dimensions have been checked. -/
def processSubset (dapGridArrayName : Option Word) (c : Clauses) (dimSub : RequestedSubset) : Except WcsFault Clauses :=
  if dimSub.isArrayIndexSubset then do
    let clause ← dimSub.getDapArrayIndexConstraint
    .ok { c with
      arraySubset := true
      domainCoordinates := c.domainCoordinates.map (setArraySubset dimSub.dimensionId clause) }
  else do
    let opened :=
      if c.ssfGridSubsetClause.length = 0 then "grid(".toList ++ DimensionSubset.appended dapGridArrayName
      else c.ssfGridSubsetClause
    let clause ← dimSub.getDapGridValueConstraint timePosition
    .ok { c with ssfGridSubsetClause := opened ++ ',' :: clause }

def arrayClause (dc : DomainCoordinate) : Word := dc.arraySubset.getD "[*]".toList

/-- The clauses of one field, and the coordinates that have been parked on. -/
def fieldExpression (dapGridArrayName : Option Word) (dimensionSubsets : List RequestedSubset)
    (domainCoordinates : List DomainCoordinate) : Except WcsFault (Word × List DomainCoordinate) := do
  let c ← dimensionSubsets.foldlM (processSubset timePosition dapGridArrayName) ⟨[], false, domainCoordinates⟩
  let arraySubsetClause :=
    if c.arraySubset then DimensionSubset.appended dapGridArrayName ++ c.domainCoordinates.flatMap arrayClause else []
  let closed :=
    if 0 < c.ssfGridSubsetClause.length then
      c.ssfGridSubsetClause ++ ')' :: (if 0 < arraySubsetClause.length then [','] else [])
    else c.ssfGridSubsetClause
  .ok (closed ++ arraySubsetClause, c.domainCoordinates)

def appendField (coverage : CoverageDescription) (dimensionSubsets : List RequestedSubset)
    (ce : Word × List DomainCoordinate) (field : Word) : Except WcsFault (Word × List DomainCoordinate) := do
  let dapCE := if 0 < ce.1.length then ce.1 ++ [','] else ce.1
  if dimensionSubsets.isEmpty then .ok (dapCE ++ field, ce.2)
  else do
    let (clauses, domainCoordinates) ←
      fieldExpression timePosition (coverage.dapGridArrayId field) dimensionSubsets ce.2
    .ok (dapCE ++ clauses, domainCoordinates)

def getDapCE (coverage : CoverageDescription) (req : GetCoverageRequest) : Except WcsFault Word := do
  checkDimensions coverage.domainCoordinates req.dimensionSubsets
  let ce ← coverage.fields.foldlM (appendField timePosition coverage req.dimensionSubsets)
    ([], coverage.domainCoordinates)
  .ok ce.1

end

end Libdap.Olfs
