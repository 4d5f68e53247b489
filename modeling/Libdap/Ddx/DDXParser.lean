import Libdap.Ddx.BaseType

/-! # The DDX parser

The callbacks of the SAX parser. Three stacks go with them: the states, the variables that are not finished, and the
attribute tables that attributes are added to. An error is a state on the stack; nothing takes it off.
-/

namespace Libdap.Ddx
open Core Constraint Dap2
set_option autoImplicit false

inductive ParseState
  | parserStart
  | insideDataset
  | insideAttributeContainer
  | insideAttribute
  | insideAttributeValue
  | insideOtherXmlAttribute
  | insideAlias
  | insideSimpleType
  | insideArray
  | insideDimension
  | insideGrid
  | insideMap
  | insideStructure
  | insideSequence
  | insideBlobHref
  | parserUnknown
  | parserError
  deriving DecidableEq, Repr

/-- An attribute of an element as libxml2 reports it. -/
structure XmlAttr where
  localname : String
  pre : Option Word
  uri : Option Word
  value : Word

structure XMLAttribute where
  pre : Word
  nsURI : Word
  value : Word

structure DDS where
  datasetName : Word
  dapVersion : Word
  dapMajor : Int
  dapMinor : Int
  attr : Nat
  vars : List BaseType

/-- `std::map::insert`: in the order of the keys, and a key that is there stays as it is. -/
def insertKey {α : Type} (k : String) (a : α) : List (String × α) → List (String × α)
  | [] => [(k, a)]
  | (k', b) :: rest =>
    if k = k' then (k', b) :: rest
    else if k < k' then (k, a) :: (k', b) :: rest
    else (k', b) :: insertKey k a rest

structure Parser where
  s : List ParseState
  btStack : List BaseType
  atStack : List Nat
  heap : Heap
  dds : DDS
  attributeTable : List (String × XMLAttribute)
  namespaceTable : List (String × Word)
  dodsAttrName : Word
  dodsAttrType : Word
  charData : Word
  otherXml : Word
  otherXmlDepth : Int
  rootNs : Word
  blobHref : Word
  errorMsg : String
  /-- What `xmlSAX2GetLineNumber` returns. -/
  line : Nat

def top {α : Type} : List α → Except Stop α
  | [] => .error .emptyStack
  | a :: _ => .ok a

def pop {α : Type} : List α → Except Stop (List α)
  | [] => .error .emptyStack
  | _ :: as => .ok as

def setState (st : ParseState) (p : Parser) : Parser := { p with s := st :: p.s }

def popState (p : Parser) : Except Stop Parser := do
  let s ← pop p.s
  .ok { p with s := s }

/-- `ddx_fatal_error`; the text is cut to fit 1024 characters. -/
def ddxFatalError (msg : String) (p : Parser) : Parser :=
  { setState .parserError p with
    errorMsg := p.errorMsg ++ "At line " ++ toString p.line ++ ": " ++ String.ofList (msg.toList.take 1023) ++ "\n" }

/-! ## Attributes of an element -/

def transferXmlAttrs (attrs : List XmlAttr) (p : Parser) : Parser :=
  { p with
    attributeTable := attrs.foldl
      (fun t a => insertKey a.localname ⟨a.pre.getD [], a.uri.getD [], a.value⟩ t) [] }

def transferXmlNs (namespaces : List (Option String × Word)) (p : Parser) : Parser :=
  { p with namespaceTable := namespaces.foldl (fun t n => insertKey (n.1.getD "") n.2 t) p.namespaceTable }

def checkAttribute (attr : String) (p : Parser) : Bool := (p.attributeTable.lookup attr).isSome

/-- `check_required_attribute` returns true also when the attribute is missing, so the callers go on. -/
def checkRequiredAttribute (attr : String) (p : Parser) : Parser :=
  if checkAttribute attr p then p else ddxFatalError ("Required attribute '" ++ attr ++ "' not found.") p

/-- `attribute_table[attr].value` -/
def attrValue (attr : String) (p : Parser) : Word := ((p.attributeTable.lookup attr).map XMLAttribute.value).getD []

def processAttributeElement (attrs : List XmlAttr) (p : Parser) : Except Stop Parser :=
  let p := checkRequiredAttribute "type" (checkRequiredAttribute "name" (transferXmlAttrs attrs p))
  if attrValue "type" p = "Container".toList then do
    let parent ← top p.atStack
    let child ← onTables (appendContainer parent (attrValue "name" p)) p.heap
    .ok { setState .insideAttributeContainer p with heap := child.2, atStack := child.1 :: p.atStack }
  else if attrValue "type" p = "OtherXML".toList then
    .ok { setState .insideOtherXmlAttribute p with
      dodsAttrName := attrValue "name" p, dodsAttrType := attrValue "type" p }
  else
    .ok { setState .insideAttribute p with dodsAttrName := attrValue "name" p, dodsAttrType := attrValue "type" p }

variable (env : Env)

def processAttributeAlias (attrs : List XmlAttr) (p : Parser) : Except Stop Parser := do
  let p := checkRequiredAttribute "attribute" (checkRequiredAttribute "name" (transferXmlAttrs attrs p))
  let table ← top p.atStack
  let done ← onTables (addValueAlias env.stack table table (attrValue "name" p) (attrValue "attribute" p)) p.heap
  .ok { setState .insideAlias p with heap := done.2 }

/-- Without a factory for the type the error is noted, and then the table of no variable is pushed. -/
def processVariable (t : DodsType) (st : ParseState) (attrs : List XmlAttr) (p : Parser) : Except Stop Parser := do
  let p := setState st (transferXmlAttrs attrs p)
  let parent ← top p.btStack
  let p := if parent.type = .array then p else checkRequiredAttribute "name" p
  let made ← factory t (attrValue "name" p) p.heap
  match made.1 with
  | none => .error .nullPointer
  | some v => .ok { p with heap := made.2, btStack := v :: p.btStack, atStack := v.attr :: p.atStack }

def processDimension (attrs : List XmlAttr) (p : Parser) : Except Stop Parser := do
  let p := setState .insideDimension (checkRequiredAttribute "size" (transferXmlAttrs attrs p))
  match p.btStack with
  | [] => .error .emptyStack
  | v :: rest =>
    if v.type = .array then
      .ok { p with btStack := appendDim env v (atoi (attrValue "size" p)) (attrValue "name" p) :: rest }
    else .ok (ddxFatalError "Parse error: Expected an array variable." p)

def processBlob (attrs : List XmlAttr) (p : Parser) : Parser :=
  let p := setState .insideBlobHref (checkRequiredAttribute "href" (transferXmlAttrs attrs p))
  { p with blobHref := attrValue "href" p }

def isAttributeOrAlias (name : String) (attrs : List XmlAttr) (p : Parser) : Except Stop (Bool × Parser) :=
  if name = "Attribute" then do
    let p ← processAttributeElement attrs p
    .ok (true, p)
  else if name = "Alias" then do
    let p ← processAttributeAlias env attrs p
    .ok (true, p)
  else .ok (false, p)

/-- The state of a variable that `is_variable` starts, by the name of its element. -/
def variableState (name : String) : Option (DodsType × ParseState) :=
  if isSimpleType (getType name) then some (getType name, .insideSimpleType)
  else if name = "Array" then some (.array, .insideArray)
  else if name = "Structure" then some (.structure_, .insideStructure)
  else if name = "Sequence" then some (.sequence, .insideSequence)
  else if name = "Grid" then some (.grid, .insideGrid)
  else none

def isVariable (name : String) (attrs : List XmlAttr) (p : Parser) : Except Stop (Bool × Parser) :=
  match variableState name with
  | some (t, st) => do
    let p ← processVariable t st attrs p
    .ok (true, p)
  | none => .ok (false, p)

/-! ## The end of a variable -/

/-- The variable on top is taken off both stacks. -/
def popVariable (p : Parser) : Except Stop (BaseType × Parser) := do
  let v ← top p.btStack
  let btStack ← pop p.btStack
  let atStack ← pop p.atStack
  .ok (v, { p with btStack := btStack, atStack := atStack })

/-- The finished variable is copied into the one on top, and deleted. -/
def addToParent (v : BaseType) (p : Parser) : Except Stop Parser :=
  match p.btStack with
  | [] => .error .emptyStack
  | parent :: rest => do
    let added ← addVar env parent v p.heap
    let heap ← delete env v added.2
    .ok { p with btStack := added.1 :: rest, heap := heap }

def typeName (t : DodsType) : String := ((typeNames.find? fun n => n.2 = t).map Prod.fst).getD "Null"

def notConstructor (what tag : String) (parent : BaseType) : String :=
  "Tried to add the " ++ what ++ " '" ++ tag ++ "' to a non-constructor type (" ++ typeName parent.type ++ " " ++
    String.ofList parent.name ++ ")."

def finishVariable (tag : String) (t : DodsType) (expected : String) (p : Parser) : Except Stop Parser :=
  if tag ≠ expected then
    .ok (ddxFatalError ("Expected an end tag for a " ++ expected ++ "; found '" ++ tag ++ "' instead.") p)
  else do
    let p ← popState p
    let popped ← popVariable p
    let v := popped.1
    let p := popped.2
    if v.type ≠ t then .ok (ddxFatalError ("Internal error: Expected a " ++ expected ++ " variable.") p)
    else if t = .array && v.shape.isEmpty then do
      let heap ← delete env v p.heap
      .ok { ddxFatalError ("No dimension element included in the Array '" ++ String.ofList v.name ++ "'.") p with
        heap := heap }
    else do
      let parent ← top p.btStack
      if !(isVectorType parent.type || isConstructorType parent.type) then do
        let heap ← delete env v p.heap
        .ok { ddxFatalError (notConstructor "array variable" tag parent) p with heap := heap }
      else addToParent env v p

def finishSimple (tag : String) (p : Parser) : Except Stop Parser :=
  if isSimpleType (getType tag) then do
    let p ← popState p
    let popped ← popVariable p
    let parent ← top popped.2.btStack
    if isVectorType parent.type || isConstructorType parent.type then addToParent env popped.1 popped.2
    else .ok (ddxFatalError (notConstructor "simple-type variable" tag parent) popped.2)
  else .ok (ddxFatalError ("Expected an end tag for a simple type; found '" ++ tag ++ "' instead.") p)

/-! ## The document -/

def ddxStartDocument (p : Parser) : Except Stop Parser := do
  let dummy ← onTables newTable p.heap
  .ok (setState .parserStart { p with
    errorMsg := "", charData := [], heap := dummy.2, atStack := p.dds.attr :: p.atStack,
    btStack := .mk .structure_ "dummy_dds".toList dummy.1 [] [] :: p.btStack })

/-- The variables go from the temporary structure to the DDS. -/
def addVars : List BaseType → DDS → Heap → Except Stop (DDS × Heap)
  | [], dds, h => .ok (dds, h)
  | v :: vs, dds, h => do
    let copy ← ptrDuplicate env v h
    addVars vs { dds with vars := dds.vars ++ [copy.1] } copy.2

def ddxEndDocument (p : Parser) : Except Stop Parser := do
  let st ← top p.s
  let p := if st ≠ .parserStart then ddxFatalError "The document contained unbalanced tags." p else p
  let st ← top p.s
  let v ← top p.btStack
  if st = .parserError then do
    let heap ← delete env v p.heap
    .ok { p with heap := heap }
  else if !isConstructorType v.type then
    .ok (ddxFatalError "Parse error: Expected a Structure, Sequence or Grid variable." p)
  else do
    let moved ← addVars env v.vars p.dds p.heap
    let btStack ← pop p.btStack
    let heap ← delete env v moved.2
    .ok { p with dds := moved.1, btStack := btStack, heap := heap }

/-! ## Elements -/

def badVersion (v : Word) : Fault := .InternalErr ("Could not parse dap version. Value given: " ++ String.ofList v)

/-- The number that `>>` makes of the text, whether it read one, and the rest; nothing when only blanks are left. -/
def readInt (s : Word) : Option (Int × Bool × Word) :=
  match s.dropWhile isSpace with
  | [] => none
  | c :: cs =>
    let text := if c = '-' || c = '+' then cs else c :: cs
    let digits := text.takeWhile Char.isDigit
    let n : Int := valueOf 10 digits
    let rest := text.dropWhile Char.isDigit
    if digits.isEmpty then some (0, false, rest)
    else if c = '-' then if n > 2147483648 then some (-2147483648, false, rest) else some (-n, true, rest)
    else if n > 2147483647 then some (2147483647, false, rest)
    else some (n, true, rest)

/-- `set_dap_version`. What is not read stays -1. -/
def setDapVersion (v : Word) (dds : DDS) : Except Stop DDS :=
  match readInt v with
  | some (major, true, rest) =>
    match rest.dropWhile isSpace with
    | [] => .error (.fault (badVersion v))
    | dot :: rest =>
      match readInt rest with
      | none => .error (.fault (badVersion v))
      | some (minor, _, _) =>
        if major = -1 || minor = -1 || dot ≠ '.' then .error (.fault (badVersion v))
        else if major = 2 || major = 3 || major = 4 then
          .ok { dds with dapVersion := v, dapMajor := major, dapMinor := minor }
        else .error (.fault (.InternalErr "Unknown DAP version."))
  | _ => .error (.fault (badVersion v))

def startDataset (uri : Option Word) (attrs : List XmlAttr) (p : Parser) : Except Stop Parser := do
  let p := setState .insideDataset p
  let p := checkRequiredAttribute "name" (transferXmlAttrs attrs { p with rootNs := uri.getD [] })
  let p := { p with dds := { p.dds with datasetName := attrValue "name" p } }
  if checkAttribute "dapVersion" p then do
    let dds ← setDapVersion (attrValue "dapVersion" p) p.dds
    .ok { p with dds := dds }
  else .ok p

/-- The start of an element of an `OtherXML` value. The namespaces are all those that were seen up to here. -/
def startOtherXml (name : String) (pre : Option Word) (namespaces : List (Option String × Word)) (attrs : List XmlAttr)
    (p : Parser) : Parser :=
  let p := { p with
    otherXmlDepth := p.otherXmlDepth + 1,
    otherXml := p.otherXml ++ '<' :: (pre.map (· ++ [':'])).getD [] ++ name.toList }
  let p := if namespaces.isEmpty then p
    else
      let p := transferXmlNs namespaces p
      { p with
        otherXml := p.otherXml ++ p.namespaceTable.flatMap fun n =>
          " xmlns".toList ++ (if n.1.isEmpty then [] else ':' :: n.1.toList) ++ "=\"".toList ++ n.2 ++ ['"'] }
  let p := if attrs.isEmpty then p
    else
      let p := transferXmlAttrs attrs p
      { p with
        otherXml := p.otherXml ++ p.attributeTable.flatMap fun a =>
          ' ' :: (if a.2.pre.isEmpty then [] else a.2.pre ++ [':']) ++ a.1.toList ++ "=\"".toList ++ a.2.value ++
            ['"'] }
  { p with otherXml := p.otherXml ++ ['>'] }

/-- An attribute or an alias, else what comes next. -/
def orElse (attrs : List XmlAttr) (name : String) (p : Parser) (next : Parser → Except Stop Parser) :
    Except Stop Parser := do
  let r ← isAttributeOrAlias env name attrs p
  if r.1 then .ok r.2 else next r.2

def variableOr (name : String) (attrs : List XmlAttr) (next : Parser → Except Stop Parser) (p : Parser) :
    Except Stop Parser := do
  let r ← isVariable name attrs p
  if r.1 then .ok r.2 else next r.2

def expectedFound (expected name : String) (p : Parser) : Except Stop Parser :=
  .ok (ddxFatalError ("Expected " ++ expected ++ "; found '" ++ name ++ "' instead.") p)

def unexpectedState (place name : String) (p : Parser) : Except Stop Parser :=
  .ok (ddxFatalError ("Internal parser error; unexpected state, inside " ++ place ++ " while processing element '" ++
    name ++ "'.") p)

def anAttribute : String := "an Attribute, Alias or variable element"

def ddxSax2StartElement (name : String) (pre uri : Option Word) (namespaces : List (Option String × Word))
    (attrs : List XmlAttr) (p : Parser) : Except Stop Parser := do
  let st ← top p.s
  match st with
  | .parserStart =>
    if name = "Dataset" then startDataset uri attrs p
    else .ok (ddxFatalError ("Expected response to start with a Dataset element; found '" ++ name ++ "' instead.") p)
  | .insideDataset =>
    orElse env attrs name p <| variableOr name attrs fun p =>
      if name = "blob" || name = "dataBLOB" then .ok (processBlob attrs p) else expectedFound anAttribute name p
  | .insideAttributeContainer => orElse env attrs name p <| expectedFound "an Attribute or Alias element" name
  | .insideAttribute =>
    orElse env attrs name p fun p =>
      if name = "value" then .ok (setState .insideAttributeValue p)
      else expectedFound "an 'Attribute', 'Alias' or 'value' element" name p
  | .insideAttributeValue => unexpectedState "value" name p
  | .insideOtherXmlAttribute => .ok (startOtherXml name pre namespaces attrs p)
  | .insideAlias => unexpectedState "alias" name p
  | .insideSimpleType => orElse env attrs name p <| expectedFound "an 'Attribute' or 'Alias' element" name
  | .insideArray =>
    orElse env attrs name p fun p =>
      let next := fun p =>
        if name = "dimension" then processDimension env attrs p
        else expectedFound "an 'Attribute' or 'Alias' element" name p
      if name ≠ "Array" then variableOr name attrs next p else next p
  | .insideDimension => unexpectedState "dimension" name p
  | .insideStructure => orElse env attrs name p <| variableOr name attrs <| expectedFound anAttribute name
  | .insideSequence => orElse env attrs name p <| variableOr name attrs <| expectedFound anAttribute name
  | .insideGrid =>
    orElse env attrs name p fun p =>
      if name = "Array" then processVariable .array .insideArray attrs p
      else if name = "Map" then processVariable .array .insideMap attrs p
      else expectedFound anAttribute name p
  | .insideMap =>
    orElse env attrs name p fun p =>
      let next := fun p =>
        if name = "dimension" then processDimension env attrs p
        else expectedFound "an 'Attribute', 'Alias', variable or 'dimension' element" name p
      if name ≠ "Array" ∧ name ≠ "Sequence" ∧ name ≠ "Grid" then variableOr name attrs next p else next p
  | .insideBlobHref => unexpectedState "blob href" name p
  | .parserUnknown => .ok (setState .parserUnknown p)
  | .parserError => .ok p

/-- A value goes to the attribute the last `Attribute` element named. -/
def appendValue (value : Word) (p : Parser) : Except Stop Parser := do
  let table ← top p.atStack
  let done ← onTables (appendAttr table p.dodsAttrName p.dodsAttrType [value]) p.heap
  .ok { p with heap := done.2 }

/-- The end of an element of an `OtherXML` value, or of the attribute. Without a namespace there is no string to compare
the one of the document with. -/
def endOtherXml (name : String) (pre uri : Option Word) (p : Parser) : Except Stop Parser :=
  if name = "Attribute" ∧ uri = none then .error .nullPointer
  else if name = "Attribute" ∧ uri = some p.rootNs then do
    let p ← popState p
    let p ← appendValue p.otherXml p
    .ok { p with otherXml := [] }
  else
    let p := if p.otherXmlDepth = 0 then
        ddxFatalError ("Expected an OtherXML attribute to end! Instead I found '" ++ name ++ "'") p
      else p
    .ok { p with
      otherXmlDepth := p.otherXmlDepth - 1,
      otherXml := p.otherXml ++ "</".toList ++ (pre.map (· ++ [':'])).getD [] ++ name.toList ++ ['>'] }

def ddxSax2EndElement (name : String) (pre uri : Option Word) (p : Parser) : Except Stop Parser := do
  let st ← top p.s
  match st with
  | .parserStart => unexpectedState "start state" name p
  | .insideDataset => if name = "Dataset" then popState p else expectedFound "an end Dataset tag" name p
  | .insideAttributeContainer =>
    if name = "Attribute" then do
      let p ← popState p
      let atStack ← pop p.atStack
      .ok { p with atStack := atStack }
    else expectedFound "an end Attribute tag" name p
  | .insideAttribute => if name = "Attribute" then popState p else expectedFound "an end Attribute tag" name p
  | .insideAttributeValue =>
    if name = "value" then do
      let p ← popState p
      let p ← appendValue p.charData p
      .ok { p with charData := [] }
    else expectedFound "an end value tag" name p
  | .insideOtherXmlAttribute => endOtherXml name pre uri p
  | .insideAlias => popState p
  | .insideSimpleType => finishSimple env name p
  | .insideArray => finishVariable env name .array "Array" p
  | .insideDimension => if name = "dimension" then popState p else expectedFound "an end dimension tag" name p
  | .insideStructure => finishVariable env name .structure_ "Structure" p
  | .insideSequence => finishVariable env name .sequence "Sequence" p
  | .insideGrid => finishVariable env name .grid "Grid" p
  | .insideMap => finishVariable env name .array "Map" p
  | .insideBlobHref =>
    if name = "blob" || name = "dataBLOB" then popState p else expectedFound "an end dataBLOB/blob tag" name p
  | .parserUnknown => popState p
  | .parserError => .ok p

/-! ## Text -/

def ddxGetCharacters (ch : Word) (p : Parser) : Except Stop Parser := do
  let st ← top p.s
  match st with
  | .insideAttributeValue => .ok { p with charData := p.charData ++ ch }
  | .insideOtherXmlAttribute => .ok { p with otherXml := p.otherXml ++ ch }
  | _ => .ok p

def ddxIgnoreableWhitespace (ch : Word) (p : Parser) : Except Stop Parser := do
  let st ← top p.s
  match st with
  | .insideOtherXmlAttribute => .ok { p with otherXml := p.otherXml ++ ch }
  | _ => .ok p

def ddxGetCdata (value : Word) (p : Parser) : Except Stop Parser := do
  let st ← top p.s
  match st with
  | .insideOtherXmlAttribute => .ok { p with otherXml := p.otherXml ++ value }
  | .parserUnknown => .ok p
  | _ => .ok (ddxFatalError "Found a CData block but none are allowed by DAP." p)

/-! ## A parse -/

inductive Event
  | startElement (name : String) (pre uri : Option Word) (namespaces : List (Option String × Word))
    (attrs : List XmlAttr)
  | endElement (name : String) (pre uri : Option Word)
  | characters (ch : Word)
  | ignorableWhitespace (ch : Word)
  | cdataBlock (value : Word)

/-- The callback for an event, at a line of the document. -/
def step (e : Nat × Event) (p : Parser) : Except Stop Parser :=
  let p := { p with line := e.1 }
  match e.2 with
  | .startElement name pre uri namespaces attrs => ddxSax2StartElement env name pre uri namespaces attrs p
  | .endElement name pre uri => ddxSax2EndElement env name pre uri p
  | .characters ch => ddxGetCharacters ch p
  | .ignorableWhitespace ch => ddxIgnoreableWhitespace ch p
  | .cdataBlock value => ddxGetCdata value p

def steps : List (Nat × Event) → Parser → Except Stop Parser
  | [], p => .ok p
  | e :: es, p => do
    let p ← step env e p
    steps es p

/-- A parser that was not used before. -/
def newParser (dds : DDS) (heap : Heap) : Parser :=
  ⟨[], [], [], heap, dds, [], [], [], [], [], [], 0, [], [], "", 0⟩

def parse (dds : DDS) (heap : Heap) (events : List (Nat × Event)) : Except Stop Parser := do
  let p ← ddxStartDocument (newParser dds heap)
  let p ← steps env events p
  ddxEndDocument env p

end Libdap.Ddx
