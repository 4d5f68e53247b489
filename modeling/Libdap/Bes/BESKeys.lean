import Libdap.Http.Decimal

/-! # The keys of the BES

A configuration file is read line by line into a buffer of 255 characters; a line sets a key, adds to it, or
names other files to read at that point. The loop over the lines need not end, so it is run for a number of steps.
-/

namespace Libdap.Bes
open Constraint Http
set_option autoImplicit false

inductive BESError
  | internal (msg : Word)
  | internalFatal (msg : Word)
  deriving DecidableEq, Repr

def BESError.message : BESError → Word
  | internal msg => msg
  | internalFatal msg => msg

/-! ## Lines -/

structure IStream where
  rest : Word
  eof : Bool
  fail : Bool
  deriving DecidableEq, Repr

def IStream.of (content : Word) : IStream := ⟨content, false, false⟩

/-- `getline` with a buffer of `n` characters; without a line, the stream has failed. -/
def IStream.getline (s : IStream) (n : Nat) : Option Word × IStream :=
  if s.eof || s.fail then (none, { s with fail := true })
  else
    let line := s.rest.takeWhile (· ≠ '\n')
    if n ≤ line.length then (none, { s with rest := s.rest.drop (n - 1), fail := true })
    else
      match s.rest.dropWhile (· ≠ '\n') with
      | _ :: rest => (some line, { s with rest := rest })
      | [] => if line = [] then (none, ⟨[], true, true⟩) else (some line, ⟨[], true, false⟩)

def isBlank (c : Char) : Bool := c = ' ' || c = '\t' || c = '\n' || c = '\r'

def removeLeadingAndTrailingBlanks (key : Word) : Word :=
  ((key.dropWhile isBlank).reverse.dropWhile isBlank).reverse

def onlyBlanks (line : Word) : Bool := line.all (· = ' ')

structure Pair where
  key : Word
  value : Word
  addto : Bool
  deriving DecidableEq, Repr

def plusInName (keysFileName b : Word) : BESError :=
  .internalFatal ("BES: Invalid entry ".toList ++ b ++ " in configuration file ".toList ++ keysFileName ++
    " '+' character found in variable name or attempting '+=' with space between the characters.\n".toList)

def equalNotFound (keysFileName b : Word) : BESError :=
  .internalFatal ("BES: Invalid entry ".toList ++ b ++ " in configuration file ".toList ++ keysFileName ++
    ":  '=' character not found.\n".toList)

/-- The loop of `break_pair`, at the position `j`. -/
def scanPair (keysFileName b : Word) : Nat → Nat → Bool → Word → Except BESError (Nat × Bool)
  | _, _, _, [] => .error (equalNotFound keysFileName b)
  | j, pos, addto, c :: cs =>
    if c = '=' then
      if !addto then .ok (j, addto)
      else if pos ≠ j - 1 then .error (plusInName keysFileName b)
      else .ok (pos, addto)
    else if c = '+' then scanPair keysFileName b (j + 1) j true cs
    else scanPair keysFileName b (j + 1) pos addto cs

def breakPair (keysFileName buffer : Word) : Except BESError (Option Pair) :=
  let b := cString buffer
  if b.head? = some '#' ∨ onlyBlanks b = true ∨ b.length ≤ 1 then .ok none
  else
    match scanPair keysFileName b 0 0 false b with
    | .error e => .error e
    | .ok (pos, addto) =>
      .ok (some ⟨removeLeadingAndTrailingBlanks (b.take pos),
        removeLeadingAndTrailingBlanks (b.drop (if addto then pos + 2 else pos + 1)), addto⟩)

/-! ## Keys -/

abbrev Keys := Word → Option (List Word)

def Keys.setKey (keys : Keys) (key val : Word) (addto : Bool) : Keys := fun k =>
  if k = key then
    let vals := if addto then (keys key).getD [] else []
    some (if val.isEmpty then vals else vals ++ [val])
  else keys k

/-- The values, when the key is found. -/
def Keys.getValues (keys : Keys) (s : Word) : Option (List Word) := keys s

def BES_INCLUDE_KEY : Word := "BES.Include".toList

/-! ## Files -/

structure BESFSFile where
  dirName : Word
  fileName : Word
  deriving DecidableEq, Repr

def BESFSFile.breakApart (fullPath : Word) : BESFSFile :=
  if '/' ∈ fullPath then
    let fileName := (fullPath.reverse.takeWhile (· ≠ '/')).reverse
    ⟨fullPath.take (fullPath.length - fileName.length - 1), fileName⟩
  else ⟨"./".toList, fullPath⟩

def BESFSFile.getFullPath (f : BESFSFile) : Word := f.dirName ++ '/' :: f.fileName

/-- What the system says of its files, and its regular expressions. -/
structure FileSystem (File : Type) where
  /-- `ifstream` -/
  file : Word → Option File
  content : File → Word
  /-- `strerror(errno)` -/
  strerror : Word → Word
  getcwd : Word
  /-- `readdir`, with what `stat` says: whether the entry is a directory. -/
  readdir : Word → Option (List (Word × Bool))
  /-- How much `regexec` matches, `-1` for nothing; or what `regcomp` complains of. -/
  regMatch : Word → Word → Except Word Int

/-- The files that are loaded so far, beside the keys and the list of the class. -/
structure Loaded (File : Type) where
  keys : Keys
  keyList : List Word
  opened : List File

abbrev LoadResult (File : Type) := EStateM.Result BESError (Loaded File) Unit

namespace FileSystem

variable {File : Type} (fs : FileSystem File)

/-- The entries of a directory that `loadDir` puts into the list of files. -/
def selectFiles (dirName fileExpr : Word) : List (Word × Bool) → Except BESError (List BESFSFile)
  | [] => .ok []
  | (dirEntry, isDir) :: entries =>
    if dirEntry = ".".toList ∨ dirEntry = "..".toList ∨ isDir = true then selectFiles dirName fileExpr entries
    else if fileExpr = [] then (selectFiles dirName fileExpr entries).map (⟨dirName, dirEntry⟩ :: ·)
    else
      match fs.regMatch fileExpr dirEntry with
      | .error msg => .error (.internal ("BESRegex error: ".toList ++ msg))
      | .ok matched =>
        if matched = dirEntry.length then (selectFiles dirName fileExpr entries).map (⟨dirName, dirEntry⟩ :: ·)
        else selectFiles dirName fileExpr entries

def loadDir (dirName fileExpr : Word) : Except BESError (List BESFSFile) :=
  match fs.readdir dirName with
  | none => .error (.internal ("ERROR: failed to open directory '".toList ++ dirName ++ "'".toList))
  | some entries => fs.selectFiles dirName fileExpr entries

def isDot (dir : Word) : Bool := dir = "./".toList || dir = ".".toList

/-- The directory that `load_include_files` looks in. -/
def newDir (keysFileName files : Word) : Word :=
  let alldir := (BESFSFile.breakApart files).dirName
  let currdir := (BESFSFile.breakApart keysFileName).dirName
  if files.head? = some '/' then alldir
  else if isDot currdir && isDot alldir then "./".toList
  else if isDot alldir then currdir
  else currdir ++ '/' :: alldir

/-- The files that an include in the file of that name is for. -/
def includeFiles (keysFileName files : Word) : Except BESError (List Word) :=
  (fs.loadDir (newDir keysFileName files) (BESFSFile.breakApart files).fileName).map (·.map BESFSFile.getFullPath)

def loadIncludeFile (load : Word → Loaded File → Option (LoadResult File)) (file : Word) (s : Loaded File) :
    Option (LoadResult File) :=
  if s.keyList.contains file then some (.ok () s) else load file { s with keyList := s.keyList ++ [file] }

def loadEach (load : Word → Loaded File → Option (LoadResult File)) : List Word → Loaded File → Option (LoadResult File)
  | [], s => some (.ok () s)
  | file :: files, s =>
    match loadIncludeFile load file s with
    | some (.ok _ s') => loadEach load files s'
    | r => r

def loadIncludeFiles (load : Word → Loaded File → Option (LoadResult File)) (keysFileName files : Word)
    (s : Loaded File) :
    Option (LoadResult File) :=
  match fs.includeFiles keysFileName files with
  | .error e => some (.error e s)
  | .ok paths => loadEach load paths s

/-- What is done with a line. -/
def processLine (load : Word → Loaded File → Option (LoadResult File)) (keysFileName line : Word) (s : Loaded File) :
    Option (LoadResult File) :=
  match breakPair keysFileName line with
  | .error e => some (.error e s)
  | .ok none => some (.ok () s)
  | .ok (some p) =>
    if p.key = BES_INCLUDE_KEY then
      fs.loadIncludeFiles load keysFileName p.value { s with keys := s.keys.setKey p.key p.value true }
    else some (.ok () { s with keys := s.keys.setKey p.key p.value p.addto })

def cannotOpen (keysFileName : Word) : BESError :=
  .internalFatal ("BES: fatal, cannot open BES configuration file ".toList ++ keysFileName ++ ": ".toList ++
    fs.strerror keysFileName ++ ".\nThe current working directory is ".toList ++ fs.getcwd ++ "\n".toList)

/-- `initialize_keys`, where `load_keys` is given. -/
def initializeKeys (loadKeys : Word → IStream → Loaded File → Option (LoadResult File)) (keysFileName : Word)
    (s : Loaded File) : Option (LoadResult File) :=
  match fs.file keysFileName with
  | none => some (.error (fs.cannotOpen keysFileName) s)
  | some f =>
    match loadKeys keysFileName (.of (fs.content f)) { s with opened := s.opened ++ [f] } with
    | some (.error e s') => some (.error (.internalFatal e.message) s')
    | r => r

/-- `load_keys`, for so many rounds of the loop and depths of inclusion. -/
def loadKeys : Nat → Word → IStream → Loaded File → Option (LoadResult File)
  | 0, _, _, _ => none
  | n + 1, keysFileName, stream, s =>
    if stream.eof then some (.ok () s)
    else
      match stream.getline 255 with
      | (none, stream) => loadKeys n keysFileName stream s
      | (some line, stream) =>
        match fs.processLine (fs.initializeKeys (loadKeys n)) keysFileName line s with
        | some (.ok _ s') => loadKeys n keysFileName stream s'
        | r => r

/-- The constructor that is given a file. -/
def load (n : Nat) (keysFileName : Word) : Option (LoadResult File) :=
  fs.initializeKeys (fs.loadKeys n) keysFileName ⟨fun _ => none, [], []⟩

end FileSystem

end Libdap.Bes
