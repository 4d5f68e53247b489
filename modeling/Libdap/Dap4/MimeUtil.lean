import Libdap.Constraint.Word
import Libdap.Core.Fault

/-! # The parts of a multipart response

The functions that read a boundary, the headers of a part and the DDX exist twice, for a `FILE` and for an `istream`.
-/

namespace Libdap.Dap4
open Core Constraint
set_option autoImplicit false

def CRLF : Word := ['\r', '\n']

def nul : Char := Char.ofNat 0

/-- What the string functions of C see of a buffer. -/
def cString (s : Word) : Word := s.takeWhile fun c => c ≠ nul

def lineLength : Nat := 1024

/-! ## The two kinds of stream -/

structure CFile where
  rest : Word
  eof : Bool

/-- At most `n` characters, none behind the end of the line; what is left; and whether the end of the file was met. -/
def takeLine : Nat → Word → Word × Word × Bool
  | 0, cs => ([], cs, false)
  | _ + 1, [] => ([], [], true)
  | n + 1, c :: cs =>
    if c = '\n' then ([c], cs, false)
    else (c :: (takeLine n cs).1, (takeLine n cs).2)

def fgets (size : Nat) (f : CFile) : Option Word × CFile :=
  if f.eof then (none, f)
  else
    let r := takeLine (size - 1) f.rest
    (if r.1.isEmpty && r.2.2 then none else some r.1, ⟨r.2.1, r.2.2⟩)

structure CharStream where
  rest : Word
  eof : Bool
  fail : Bool
  /-- How many characters the buffer holds when this is what is left. -/
  inAvail : Word → Nat

inductive LineEnd
  | delim
  | eof
  | full
  deriving DecidableEq

/-- The characters before the delimiter, at most `n`; what is left; and what ended the line. -/
def takeUntil (delim : Char) : Nat → Word → Word × Word × LineEnd
  | _, [] => ([], [], .eof)
  | n, c :: cs =>
    if c = delim then ([], cs, .delim)
    else match n with
      | 0 => ([], c :: cs, .full)
      | n + 1 => (c :: (takeUntil delim n cs).1, (takeUntil delim n cs).2)

/-- `istream::getline`: what is stored and the value of `gcount`. -/
def CharStream.getline (size : Nat) (delim : Char) (s : CharStream) : Word × Nat × CharStream :=
  if s.eof || s.fail then ([], 0, { s with fail := true })
  else
    let r := takeUntil delim (size - 1) s.rest
    match r.2.2 with
    | .delim => (r.1, r.1.length + 1, { s with rest := r.2.1 })
    | .eof => (r.1, r.1.length, { s with rest := r.2.1, eof := true, fail := r.1.isEmpty })
    | .full => (r.1, r.1.length, { s with rest := r.2.1, fail := true })

/-- What `istream::ignore` leaves, and whether it met the end. -/
def skipUntil (delim : Char) : Nat → Word → Word × Bool
  | 0, cs => (cs, false)
  | _ + 1, [] => ([], true)
  | n + 1, c :: cs => if c = delim then (cs, false) else skipUntil delim n cs

def CharStream.ignore (n : Nat) (delim : Char) (s : CharStream) : CharStream :=
  if s.eof || s.fail then { s with fail := true }
  else { s with rest := (skipUntil delim n s.rest).1, eof := (skipUntil delim n s.rest).2 }

/-! ## Headers -/

def noHeader : Fault := .Error "I expected to find a MIME header, but got EOF instead."

/-- `get_next_mime_header`. Without a line the buffer was never set; of a line with less than two characters it looks
at one before the buffer. -/
def getNextMimeHeaderFile (f : CFile) : Except Fault (Word × CFile) :=
  if f.eof then .error noHeader
  else match fgets lineLength f with
    | (none, _) => .error .undefined
    | (some line, f') =>
      if line.take 2 = CRLF ∨ line.head? = some '\n' then .ok ([], f')
      else
        let slen := min (cString line).length lineLength
        if slen < 2 then .error .outOfBounds
        else if (cString line)[slen - 2]? = some '\r' then .ok ((cString line).take (slen - 2), f')
        else .ok ((cString line).take (slen - 1), f')

def getNextMimeHeaderStream (s : CharStream) : Except Fault (Word × CharStream) :=
  if s.eof then .error noHeader
  else
    let line := cString (s.getline lineLength '\n').1
    .ok (if line.contains '\r' then line.dropLast else line, (s.getline lineLength '\n').2.2)

/-- A stream with its function for the next header. -/
structure Reader (S : Type) where
  rest : S → Word
  next : S → Except Fault (Word × S)

def fileReader : Reader CFile := ⟨CFile.rest, getNextMimeHeaderFile⟩

def streamReader : Reader CharStream := ⟨CharStream.rest, getNextMimeHeaderStream⟩

def downcase (s : Word) : Word := s.map Char.toLower

/-- The name and the value, read from a string stream. -/
def parseMimeHeader (header : Word) : Word × Word :=
  let iss : CharStream := ⟨header, false, false, List.length⟩
  let name := iss.getline 1023 ':'
  let value := (name.2.2.ignore 1023 ' ').getline 1023 '\n'
  (downcase (cString name.1), downcase (cString value.1))

inductive ObjectType
  | unknownType
  | dodsDas
  | dodsDds
  | dodsData
  | dodsError
  | webError
  | dap4Ddx
  | dap4Data
  | dap4Error
  | dap4DataDdx
  | dodsDdx
  deriving DecidableEq, Repr

def descrip : ObjectType → Word
  | .unknownType => "unknown".toList
  | .dodsDas => "dods_das".toList
  | .dodsDds => "dods_dds".toList
  | .dodsData => "dods_data".toList
  | .dodsError => "dods_error".toList
  | .webError => "web_error".toList
  | .dap4Ddx => "dap4-ddx".toList
  | .dap4Data => "dap4-data".toList
  | .dap4Error => "dap4-error".toList
  | .dap4DataDdx => "dap4-data-ddx".toList
  | .dodsDdx => "dods_ddx".toList

def getDescriptionType (value : Word) : ObjectType :=
  if value = "dods_das".toList ∨ value = "dods-das".toList then .dodsDas
  else if value = "dods_dds".toList ∨ value = "dods-dds".toList then .dodsDds
  else if value = "dods_data".toList ∨ value = "dods-data".toList then .dodsData
  else if value = "dods_error".toList ∨ value = "dods-error".toList then .dodsError
  else if value = "web_error".toList ∨ value = "web-error".toList then .webError
  else if value = "dods_ddx".toList ∨ value = "dods-ddx".toList then .dodsDdx
  else if value = "dap4_ddx".toList ∨ value = "dap4-ddx".toList then .dap4Ddx
  else if value = "dap4_data".toList ∨ value = "dap4-data".toList then .dap4Data
  else if value = "dap4_error".toList ∨ value = "dap4-error".toList then .dap4Error
  else if value = "dap4_data_ddx".toList ∨ value = "dap4-data-ddx".toList then .dap4DataDdx
  else .unknownType

def hasPart (s part : Word) : Bool := s.tails.any fun t => part.isPrefixOf t

/-- `strncmp` of two strings is 0. -/
def strncmpEq (n : Nat) (s t : Word) : Bool := (cString s).take n = (cString t).take n

def isBoundary (line boundary : Word) : Bool :=
  if (cString line).length < 2 || (cString line).take 2 ≠ ['-', '-'] then false
  else strncmpEq boundary.length line boundary

def badBoundary : Fault := .Error "The DAP4 data response document is broken - missing or malformed boundary."

variable {S : Type}

def readMultipartBoundary (r : Reader S) (s : S) (boundary : Word) : Except Fault (Word × S) := do
  let line ← r.next s
  if (!boundary.isEmpty && isBoundary line.1 boundary) || !(['-', '-'].isPrefixOf line.1) then .error badBoundary
  else .ok line

/-- Which of the three headers there were. -/
structure Seen where
  ct : Bool
  cd : Bool
  ci : Bool

def badContentType (contentType : Word) : Fault :=
  .Error ("Content-Type for this part of a DAP4 data response must be " ++ String.ofList contentType ++ ".")

def badDescription : Fault :=
  .Error "Content-Description for this part of a DAP4 data response must be dap4-ddx or dap4-data-ddx"

def badContentId (cid value : Word) : Fault :=
  .Error ("Content-Id mismatch. Expected: " ++ String.ofList cid ++ ", but got: " ++ String.ofList value)

/-- The body of the loop. -/
def checkHeader (contentType : Word) (objectType : ObjectType) (cid header : Word) (seen : Seen) : Except Fault Seen :=
  let (name, value) := parseMimeHeader header
  if name = "content-type".toList then
    if hasPart value contentType then .ok { seen with ct := true } else .error (badContentType contentType)
  else if name = "content-description".toList then
    if getDescriptionType value = objectType then .ok { seen with cd := true } else .error badDescription
  else if name = "content-id".toList then
    if !cid.isEmpty && value ≠ cid then .error (badContentId cid value) else .ok { seen with ci := true }
  else .ok seen

/-- The loop, from the header that was read last. Each turn takes a character from the stream, or is the last one. -/
def checkHeaders (r : Reader S) (contentType : Word) (objectType : ObjectType) (cid : Word) :
    Nat → Word → Seen → S → Except Fault (Seen × S)
  | 0, _, _, _ => .error .undefined
  | fuel + 1, header, seen, s =>
    if header.isEmpty then .ok (seen, s)
    else do
      let seen ← checkHeader contentType objectType cid header seen
      let next ← r.next s
      checkHeaders r contentType objectType cid fuel next.1 seen next.2

def missingHeader : Fault := .Error "The DAP4 data response document is broken - missing header."

def readMultipartHeaders (r : Reader S) (s : S) (contentType : Word) (objectType : ObjectType) (cid : Word) :
    Except Fault S := do
  let first ← r.next s
  let last ← checkHeaders r contentType objectType cid ((r.rest s).length + 1) first.1 ⟨false, false, false⟩ first.2
  if last.1.ct && last.1.cd && last.1.ci then .ok last.2 else .error missingHeader

def cidToHeaderValue (cid : Word) : Except Fault Word :=
  if "cid:".toList.isPrefixOf cid then .ok (downcase ('<' :: cid.drop 4 ++ ['>']))
  else .error (.Error "expected CID to start with 'cid:'")

/-! ## The DDX -/

/-- What the XML parser and its callbacks make of all they are given: the reference to the data part. -/
abbrev ParseDdx := Word → Except Fault Word

def notOpen : Fault := .InternalErr "Input stream not open or read error"

/-- The lines up to the boundary. -/
def fileLines (boundary : Word) : Nat → CFile → Word × CFile
  | 0, f => ([], f)
  | fuel + 1, f =>
    match fgets 1024 f with
    | (none, f') => ([], f')
    | (some chars, f') =>
      if isBoundary chars boundary then ([], f')
      else (cString chars ++ (fileLines boundary fuel f').1, (fileLines boundary fuel f').2)

/-- `intern_stream`: what is passed to the parser, the reference, and the file behind the boundary. -/
def internFile (parse : ParseDdx) (f : CFile) (boundary : Word) : Except Fault (Word × Word × CFile) :=
  if f.eof then .error notOpen
  else
    let first := f.rest.take 4
    let f₁ : CFile := ⟨f.rest.drop 4, f.rest.length < 4⟩
    if first.isEmpty then .ok ([], [], f₁)
    else do
      let lines := fileLines boundary (f.rest.length + 1) f₁
      let cid ← parse (first ++ lines.1)
      .ok (first ++ lines.1, cid, lines.2)

/-- The lines up to the boundary, from the one that was read last. The last of the characters that were read is made the
end of the line. -/
def streamLines (boundary : Word) : Nat → Word × Nat × CharStream → Word × CharStream
  | 0, (_, _, s) => ([], s)
  | fuel + 1, (chars, res, s) =>
    if res = 0 || isBoundary (chars.take (res - 1) ++ ['\n']) boundary then ([], s)
    else
      (chars.take (res - 1) ++ '\n' :: (streamLines boundary fuel (s.getline 1024 '\n')).1,
        (streamLines boundary fuel (s.getline 1024 '\n')).2)

/-- `readsome` takes what is in the buffer. When no character was read, one before the buffer is set. -/
def internStream (parse : ParseDdx) (s : CharStream) (boundary : Word) : Except Fault (Word × Word × CharStream) :=
  if s.eof || s.fail then .error notOpen
  else
    let k := min 4 (s.inAvail s.rest)
    let first := s.rest.take k
    let s₁ : CharStream := { s with rest := s.rest.drop k }
    if first.isEmpty then .ok ([], [], s₁)
    else if (s₁.getline 1024 '\n').2.1 = 0 then .error .outOfBounds
    else do
      let lines := streamLines boundary (s.rest.length + 1) (s₁.getline 1024 '\n')
      let cid ← parse (first ++ lines.1)
      .ok (first ++ lines.1, cid, lines.2)

/-! ## The response -/

inductive EncodingType
  | unknownEnc
  | deflate
  | xPlain
  | gzip
  | binary
  deriving DecidableEq, Repr

def encoding : EncodingType → Word
  | .unknownEnc => "unknown".toList
  | .deflate => "deflate".toList
  | .xPlain => "x-plain".toList
  | .gzip => "gzip".toList
  | .binary => "binary".toList

/-- The two functions that write the headers of a part differ in the content type. -/
def setMimeBoundary (contentType boundary cid : Word) (type : ObjectType) (enc : EncodingType) : Word :=
  "--".toList ++ boundary ++ CRLF ++
  ("Content-Type: ".toList ++ contentType) ++ CRLF ++
  ("Content-Id: <".toList ++ cid ++ [('>')]) ++ CRLF ++
  ("Content-Description: ".toList ++ descrip type) ++ CRLF ++
  (if enc ≠ .xPlain then "Content-Encoding: ".toList ++ encoding enc ++ CRLF else []) ++
  CRLF

def setMimeDdxBoundary (boundary cid : Word) : ObjectType → EncodingType → Word :=
  setMimeBoundary "Text/xml; charset=iso-8859-1".toList boundary cid

def setMimeDataBoundary (boundary cid : Word) : ObjectType → EncodingType → Word :=
  setMimeBoundary "application/octet-stream".toList boundary cid

/-- `dataset_constraint_ddx`, with the DDX and the data as they are written. -/
def datasetConstraintDdx (boundary start cid ddx data : Word) : Word :=
  setMimeDdxBoundary boundary start .dap4Ddx .xPlain ++ ddx ++ setMimeDataBoundary boundary cid .dap4Data .xPlain ++
    data

/-- The part of `process_data` for such a response, up to the data. -/
def processDataDdx (r : Reader S) (intern : S → Word → Except Fault (Word × Word × S)) (s : S) :
    Except Fault (Word × S) := do
  let boundary ← readMultipartBoundary r s []
  let s ← readMultipartHeaders r boundary.2 "text/xml".toList .dap4Ddx []
  let ddx ← intern s boundary.1
  let dataCid ← cidToHeaderValue ddx.2.1
  let s ← readMultipartHeaders r ddx.2.2 "application/octet-stream".toList .dap4Data dataCid
  .ok (ddx.1, s)

end Libdap.Dap4
