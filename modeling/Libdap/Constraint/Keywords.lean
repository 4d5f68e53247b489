import Libdap.Constraint.Lexemes
import Mathlib.Logic.Function.Basic

/-! # The keywords of a constraint expression

The clauses in front of an expression that set options of the request are taken off before it is parsed, from the text
with its escapes undone.
-/

namespace Libdap.Constraint
open Core
set_option autoImplicit false

namespace Keywords

/-- The keywords and their allowed values. -/
def knownKeywords : List (Word × List Word) :=
  [("dap".toList, ["2", "2.0", "3.2", "3.3", "3.4", "4", "4.0"].map String.toList),
   ("checksum".toList, ["md5", "MD5", "sha1", "SHA1"].map String.toList)]

/-- The value ends at the first parenthesis that closes, and where that one is the earlier it goes to the end. -/
def fParseKeyword (kw : Word) : Option (Word × Word) :=
  match kw.findIdx? (· == '('), kw.findIdx? (· == ')') with
  | some i, some j =>
    let word := kw.take i
    let value := if j < i + 1 then kw.drop (i + 1) else (kw.drop (i + 1)).take (j - (i + 1))
    if word.isEmpty || value.isEmpty then none else some (word, value)
  | _, _ => none

abbrev Parsed := Word → Option Word

def mAddKeyword (parsed : Parsed) (word value : Word) : Parsed := Function.update parsed word (some value)

def mIsValidKeyword (word value : Word) : Except Fault Bool :=
  match knownKeywords.lookup word with
  | none => .ok false
  | some values =>
    if values.contains value then .ok true
    else .error (.Error ("Bad value passed to the keyword/function: " ++ String.ofList word))

/-- The loop over the clauses; each round takes some of the projection. -/
def keywordLoop : Nat → Parsed → Word → Except Fault (Parsed × Word)
  | 0, parsed, projection => .ok (parsed, projection)
  | n + 1, parsed, projection =>
    if projection.isEmpty then .ok (parsed, projection)
    else
      match fParseKeyword (projection.takeWhile (· ≠ ',')) with
      | none => .ok (parsed, projection)
      | some (word, value) => do
        if ← mIsValidKeyword word value then
          keywordLoop n (mAddKeyword parsed word value) ((projection.dropWhile (· ≠ ',')).drop 1)
        else .ok (parsed, projection)

/-- What `%20` is kept as. -/
def except : Word := ['%', '2', '0']

/-- The text with its escapes undone, cut at the first `&`. -/
def parseText (parsed : Parsed) (text : Word) : Except Fault (Parsed × Word) := do
  let projection := text.takeWhile (· ≠ '&')
  let selection := text.dropWhile (· ≠ '&')
  let (parsed, projection) ← keywordLoop projection.length parsed projection
  .ok (parsed, projection ++ selection)

def parseKeywords (unset : Word) (parsed : Parsed) (ce : Word) : Option (Except Fault (Parsed × Word)) :=
  (Escaping.www2id unset ce ['%'] except).map (parseText parsed)

end Keywords
end Libdap.Constraint
