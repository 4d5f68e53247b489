import Libdap.Core.Fault
import Libdap.Http.Decimal

/-! # Error objects

`Error::print` puts the message between double quotes as it is. The scanner of `Error::parse` takes a backslash and the
character behind it for one, and ends the string at the next double quote.
-/

namespace Libdap.ErrorObject
open Core Constraint Http
set_option autoImplicit false

/-- An `int` -/
abbrev ErrorCode : Type := {n : Int // -2147483648 ≤ n ∧ n ≤ 2147483647}

def undefinedError : ErrorCode := ⟨1000, by decide⟩

def errMessages : List Word :=
  ["Undefined error".toList, "Unknown error".toList, "Internal error".toList, "No such file".toList,
    "No such variable".toList, "Malformed expression".toList, "No authorization".toList, "Cannot read file".toList,
    "Cannot read file".toList]

structure Error where
  code : ErrorCode
  message : Word
  deriving DecidableEq

namespace Error

def OK (e : Error) : Bool :=
  (e.code = undefinedError && e.message.isEmpty) || (e.code ≠ undefinedError && !e.message.isEmpty)

/-- The codes up to `cannot_read_file` have a message. -/
def setErrorCode (ec : ErrorCode) (e : Error) : Error where
  code := ec
  message :=
    if e.message.isEmpty ∧ 1000 < ec.val ∧ ec.val ≤ 1007 then errMessages.getD (ec.val - 1000).toNat []
    else errMessages.getD 0 []

def setErrorMessage (msg : Word) (e : Error) : Error := { e with message := msg }

end Error

/-! ## Printing -/

def wrapped (message : Word) : Bool := message.head? = some '"' && message.getLast? = some '"'

/-- The message as it is printed, in double quotes. -/
def printed (message : Word) : Word :=
  if wrapped message then cString message else '"' :: (cString message ++ ['"'])

/-- `Error::print` of an object that is valid. -/
def Error.print (e : Error) : Word :=
  "Error \x7b\n".toList ++ ("    code = ".toList ++ (integer e.code.val ++ (";\n".toList ++ ("    message = ".toList ++
    (printed e.message ++ (";\n".toList ++ "\x7d;\n".toList))))))

/-! ## The scanner -/

inductive Token
  | error
  | code
  | msg
  | int (n : ErrorCode)
  | str (w : Word)
  | char (c : Char)
  deriving DecidableEq

inductive StartCondition
  | initial
  | quote
  | comment
  deriving DecidableEq

/-- What is left to scan. The rest are variables that keep their values from one file to the next. -/
structure Scanner where
  rest : Word
  start : StartCondition
  errorLineNum : Nat
  startLine : Nat
  deriving DecidableEq

def keywords : List (Word × Token) :=
  [("error".toList, .error), ("Error".toList, .error), ("ERROR".toList, .error),
    ("code".toList, .code), ("Code".toList, .code), ("CODE".toList, .code),
    ("message".toList, .msg), ("Message".toList, .msg), ("MESSAGE".toList, .msg)]

def keyword (s : Word) : Option (Token × Word) :=
  keywords.findSome? fun k => if k.1.isPrefixOf s then some (k.2, s.drop k.1.length) else none

def unterminatedQuote (startLine : Nat) : Fault :=
  .Error ("Error scanning the error response: Unterminated quote (starts on line " ++ toString startLine ++ ")\n")

/-- The rules of the start condition `quote`, behind what they have matched so far. No rule is for a backslash at the
end of a line: it is written out together with all that was matched. -/
def quote (startLine : Nat) : Word → Word → Nat → Except Fault (Token × Scanner)
  | _, [], _ => .error (unterminatedQuote startLine)
  | text, c :: cs, line =>
    if c = '"' then .ok (.str (text ++ [c]), ⟨cs, .initial, line, startLine⟩)
    else if c = '\n' then quote startLine (text ++ [c]) cs (line + 1)
    else if c = '\\' then
      match cs with
      | [] => .error (unterminatedQuote startLine)
      | d :: ds =>
        if d = '\n' then quote startLine [d] ds (line + 1)
        else quote startLine (text ++ [c, d]) ds line
    else quote startLine (text ++ [c]) cs line

/-- `atoi` of a word is an `int`. -/
theorem atoi_bounds (val : Word) : -2147483648 ≤ atoi val ∧ atoi val ≤ 2147483647 := by
  rw [atoi]
  cases number (fun cs => (10, cs)) val with
  | none => exact ⟨by decide, by decide⟩
  | some r => exact int32_bounds _

/-- `store_integer` -/
def storeInteger (digits : Word) : ErrorCode := ⟨atoi digits, atoi_bounds digits⟩

/-- The next token. A character that starts none is not looked at. -/
def lex : StartCondition → Word → Nat → Nat → Except Fault (Option Token × Scanner)
  | .quote, cs, line, startLine => do
    let r ← quote startLine [] cs line
    .ok (some r.1, r.2)
  | start, [], _, startLine => .ok (none, ⟨[], start, 1, startLine⟩)
  | .comment, c :: cs, line, startLine =>
    if c = '\n' then lex .initial cs (line + 1) startLine else lex .comment cs line startLine
  | .initial, c :: cs, line, startLine =>
    match keyword (c :: cs) with
    | some (t, rest) => .ok (some t, ⟨rest, .initial, line, startLine⟩)
    | none =>
      if isDigit c then
        .ok (some (.int (storeInteger ((c :: cs).takeWhile isDigit))),
          ⟨(c :: cs).dropWhile isDigit, .initial, line, startLine⟩)
      else if c = '\x7b' ∨ c = '\x7d' ∨ c = ';' ∨ c = '=' then .ok (some (.char c), ⟨cs, .initial, line, startLine⟩)
      else if c = '\n' then lex .initial cs (line + 1) startLine
      else if c = '#' then lex .comment cs line startLine
      else if c = '"' then do
        let r ← quote line [c] cs line
        .ok (some r.1, r.2)
      else lex .initial cs line startLine

attribute [local grind =] quote lex

def Scanner.next (s : Scanner) : Except Fault (Option Token × Scanner) := lex s.start s.rest s.errorLineNum s.startLine

/-! ## The parser -/

def syntaxError (line : Nat) : Fault := .Error ("syntax error line: " ++ toString line ++ "\n")

def Scanner.expect (t : Option Token) (s : Scanner) : Except Fault Scanner := do
  let r ← s.next
  if r.1 = t then .ok r.2 else .error (syntaxError r.2.errorLineNum)

def Scanner.expectInt (s : Scanner) : Except Fault (ErrorCode × Scanner) := do
  let r ← s.next
  match r.1 with
  | some (.int n) => .ok (n, r.2)
  | _ => .error (syntaxError r.2.errorLineNum)

def Scanner.expectStr (s : Scanner) : Except Fault (Word × Scanner) := do
  let r ← s.next
  match r.1 with
  | some (.str w) => .ok (w, r.2)
  | _ => .error (syntaxError r.2.errorLineNum)

/-- `code` -/
def parseCode (s : Scanner) : Except Fault (ErrorCode × Scanner) := do
  let s ← s.expect (some .code)
  let s ← s.expect (some (.char '='))
  let r ← s.expectInt
  let s ← r.2.expect (some (.char ';'))
  .ok (r.1, s)

/-- `message`, behind its first token -/
def parseMessage (s : Scanner) : Except Fault (Word × Scanner) := do
  let s ← s.expect (some (.char '='))
  let r ← s.expectStr
  let s ← r.2.expect (some (.char ';'))
  .ok (r.1, s)

/-- The end of `error_object`, and of the file. -/
def parseEnd (e : Error) (s : Scanner) : Except Fault Error := do
  let s ← s.expect (some (.char ';'))
  let _ ← s.expect none
  .ok e

/-- `Errorparse` -/
def errorparse (e : Error) (s : Scanner) : Except Fault Error := do
  let s ← s.expect (some .error)
  let s ← s.expect (some (.char '\x7b'))
  let r ← parseCode s
  let t ← r.2.next
  if t.1 = some .msg then do
    let m ← parseMessage t.2
    let s ← m.2.expect (some (.char '\x7d'))
    parseEnd ((e.setErrorCode r.1).setErrorMessage (cString m.1)) s
  else if t.1 = some (.char '\x7d') then parseEnd (e.setErrorCode r.1) t.2
  else .error (syntaxError t.2.errorLineNum)

/-- `Error::parse` of a file, with the scanner as the last file left it. -/
def Error.parse (e : Error) (file : Word) (s : Scanner) : Except Fault (Error × Bool) :=
  match errorparse e { s with rest := file } with
  | .error (.Error msg) => .error (.InternalErr msg)
  | .error f => .error f
  | .ok e' => .ok (e', e'.OK)

/-! ## The tokens of a printed object -/

theorem keyword_none {c : Char} (h : c ∉ "eEcCmM".toList) (cs : Word) : keyword (c :: cs) = none := by
  simp at h
  simp [keyword, keywords, Ne.symm h.1, Ne.symm h.2.1, Ne.symm h.2.2.1, Ne.symm h.2.2.2.1,
    Ne.symm h.2.2.2.2.1, Ne.symm h.2.2.2.2.2]

variable (cs : Word) (line startLine : Nat)

theorem lex_blank : lex .initial (' ' :: cs) line startLine = lex .initial cs line startLine := by
  rw [lex, keyword_none (by decide)]
  rfl

theorem lex_minus : lex .initial ('-' :: cs) line startLine = lex .initial cs line startLine := by
  rw [lex, keyword_none (by decide)]
  rfl

theorem lex_newline : lex .initial ('\n' :: cs) line startLine = lex .initial cs (line + 1) startLine := by
  rw [lex, keyword_none (by decide)]
  rfl

theorem lex_char {c : Char} (h : c = '\x7b' ∨ c = '\x7d' ∨ c = ';' ∨ c = '=') :
    lex .initial (c :: cs) line startLine = .ok (some (.char c), ⟨cs, .initial, line, startLine⟩) := by
  obtain rfl | rfl | rfl | rfl := h <;> rw [lex, keyword_none (by decide)] <;> rfl

theorem lex_quote : lex .initial ('"' :: cs) line startLine = (do
    let r ← quote line ['"'] cs line
    .ok (some r.1, r.2)) := by
  rw [lex, keyword_none (by decide)]
  rfl

theorem lex_error : lex .initial ("Error".toList ++ cs) line startLine =
    .ok (some .error, ⟨cs, .initial, line, startLine⟩) := rfl

theorem lex_code : lex .initial ("code".toList ++ cs) line startLine =
    .ok (some .code, ⟨cs, .initial, line, startLine⟩) := rfl

theorem lex_message : lex .initial ("message".toList ++ cs) line startLine =
    .ok (some .msg, ⟨cs, .initial, line, startLine⟩) := rfl

theorem lex_end : lex .initial [] line startLine = .ok (none, ⟨[], .initial, 1, startLine⟩) := rfl

end Libdap.ErrorObject
