import Libdap.Core.Int32

/-! # The numbers of a constraint expression

`check_uint32` reads a word with `strtoul` in the base that the word's own form gives, and `atoi`
reads the same word again in base ten.
-/

namespace Libdap.Constraint
open Core
set_option autoImplicit false

abbrev Word := List Char

/-- The characters of a literal are taken from the literal and not from its bytes. -/
theorem of_literal {text : String} {l : Word} (h : text = String.ofList l) {p : Word → Prop} (hp : p l) :
    p text.toList := by
  rw [h, String.toList_ofList]
  exact hp

/-- A word's characters are looked at one by one, not all characters that there are. -/
theorem forall_mem_of_all {α : Type} {p : α → Prop} [DecidablePred p] {l : List α}
    (h : (l.all fun a => decide (p a)) = true) : ∀ a ∈ l, p a := fun a ha =>
  of_decide_eq_true (List.all_eq_true.mp h a ha)

def LONG_MAX : Int := 9223372036854775807

def isSpace (c : Char) : Bool :=
  c = ' ' || c = '\t' || c = '\n' || c = '\r' || c.toNat = 11 || c.toNat = 12

def digitOf (c : Char) : Option Nat :=
  if '0' ≤ c ∧ c ≤ '9' then some (c.toNat - '0'.toNat)
  else if 'a' ≤ c ∧ c ≤ 'z' then some (c.toNat - 'a'.toNat + 10)
  else if 'A' ≤ c ∧ c ≤ 'Z' then some (c.toNat - 'A'.toNat + 10)
  else none

def isDigitOf (base : Nat) (c : Char) : Bool := (digitOf c).any (· < base)

def valueOf (base : Nat) (digits : Word) : Nat :=
  digits.foldl (fun value c => value * base + (digitOf c).getD 0) 0

/-- The sign, and what follows it. -/
def sign : Word → Bool × Word
  | '-' :: cs => (true, cs)
  | '+' :: cs => (false, cs)
  | cs => (false, cs)

/-- The base that base 0 stands for, and the digits of the word. A lone `0x` is the digit 0. -/
def baseOf : Word → Nat × Word
  | '0' :: x :: c :: cs =>
    if (x = 'x' ∨ x = 'X') ∧ isDigitOf 16 c then (16, c :: cs) else (8, '0' :: x :: c :: cs)
  | '0' :: cs => (8, '0' :: cs)
  | cs => (10, cs)

/-- What `strtoul` and `strtol` read of a word: the sign, the value before any saturation and the
characters behind the last digit; nothing when there is no digit. -/
def number (base : Word → Nat × Word) (val : Word) : Option (Bool × Nat × Word) :=
  let (negative, cs) := sign (val.dropWhile isSpace)
  let (b, cs) := base cs
  let digits := cs.takeWhile (isDigitOf b)
  if digits.isEmpty then none else some (negative, valueOf b digits, cs.dropWhile (isDigitOf b))

/-- A value over `ULONG_MAX` sets `ERANGE`; it is over `DODS_UINT_MAX` too. -/
def checkUint32 (val : Word) : Bool :=
  if (val.dropWhile isSpace).head? = some '-' then false
  else match number baseOf val with
    | none => false
    | some (_, v, ptr) => ptr.isEmpty && v ≤ UINT_MAX

/-- `(int) strtol(val, 0, 10)` -/
def atoi (val : Word) : Int :=
  match number (fun cs => (10, cs)) val with
  | none => 0
  | some (negative, v, _) => int32 (if negative then max (-LONG_MAX - 1) (-v) else min LONG_MAX v)

example : checkUint32 "0x1F".toList ∧ atoi "0x1F".toList = 0 := by decide

example : checkUint32 "4294967295".toList ∧ atoi "4294967295".toList = -1 := by decide

end Libdap.Constraint
