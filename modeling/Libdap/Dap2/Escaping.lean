import Libdap.Constraint.Word
import Mathlib.Data.List.Basic

/-! # Names in a URL

`id2www` writes each character that a name in a URL cannot hold as `%` and two hexadecimal digits,
and `www2id` puts the characters back. Strings are of bytes, so the characters are those up to 255.
-/

namespace Libdap.Dap2
open Constraint
set_option autoImplicit false

/-- The allowable characters of `id2www`. -/
def allowable (c : Char) : Bool := c.isAlphanum || "-+_/.\\*".toList.contains c

def hexDigit (n : Nat) : Char := if n < 10 then Char.ofNat (48 + n) else Char.ofNat (87 + n)

def hexstring (c : Char) : Word := [hexDigit (c.toNat / 16), hexDigit (c.toNat % 16)]

def escaped (c : Char) : Word := if allowable c then [c] else '%' :: hexstring c

def id2www (n : Word) : Word := n.flatMap escaped

/-- `(char) val`, as a string: empty for the null character. -/
def charString (val : Int) : Word := if val % 256 = 0 then [] else [Char.ofNat (val % 256).toNat]

/-- `>> hex >> val` on the string. A string of blanks leaves `val` as it was, and `unset` is the
string of what a variable that was never set holds. -/
def unhexstring (unset : Word) (s : Word) : Word :=
  if s.all isSpace then unset
  else match number (fun cs => match cs with
      | '0' :: 'x' :: cs => (16, cs)
      | '0' :: 'X' :: cs => (16, cs)
      | cs => (16, cs)) s with
    | none => charString 0
    | some (negative, v, _) => charString (if negative then -v else v)

/-- The loop steps over the character at the place of the escape, whatever was put there. -/
def www2idFrom (unset : Word) : Nat → Word → Word
  | 0, n => n
  | _ + 1, [] => []
  | k + 1, c :: cs =>
    if c = '%' then
      match unhexstring unset (cs.take 2) with
      | [] => (cs.drop 2).take 1 ++ www2idFrom unset k ((cs.drop 2).drop 1)
      | d :: ds => d :: www2idFrom unset k (ds ++ cs.drop 2)
    else c :: www2idFrom unset k cs

def www2id (unset : Word) (n : Word) : Word := www2idFrom unset n.length n

/-- A string of characters that are bytes and not the null character. -/
def IsName (n : Word) : Prop := ∀ c ∈ n, 0 < c.toNat ∧ c.toNat < 256

instance (n : Word) : Decidable (IsName n) :=
  decidable_of_iff (n.all fun c => 0 < c.toNat && c.toNat < 256) (by simp [IsName])

theorem www2idFrom_of_not_mem (unset : Word) (k : Nat) {n : Word} (h : '%' ∉ n) :
    www2idFrom unset k n = n := by
  induction k generalizing n with
  | zero => rfl
  | succ k ih =>
    cases n with
    | nil => rfl
    | cons c cs =>
      rw [List.mem_cons, not_or] at h
      rw [www2idFrom, if_neg (Ne.symm h.1), ih h.2]

theorem www2id_of_not_mem (unset : Word) {n : Word} (h : '%' ∉ n) : www2id unset n = n :=
  www2idFrom_of_not_mem unset n.length h

set_option maxRecDepth 20000 in
theorem unhexstring_hexstring (unset : Word) {c : Char} (hPos : 0 < c.toNat) (hByte : c.toNat < 256) :
    unhexstring unset (hexstring c) = [c] := by
  have hAll : ∀ n : Fin 256, n.val ≠ 0 →
      unhexstring [] [hexDigit (n.val / 16), hexDigit (n.val % 16)] = [Char.ofNat n.val] ∧
        [hexDigit (n.val / 16), hexDigit (n.val % 16)].all isSpace = false := by
    decide
  obtain ⟨hValue, hBlank⟩ := hAll ⟨c.toNat, hByte⟩ (Nat.ne_of_gt hPos)
  rw [unhexstring, hBlank] at hValue
  rw [hexstring, unhexstring, hBlank]
  rw [Char.ofNat_toNat] at hValue
  exact hValue

theorem www2idFrom_escaped (unset : Word) (c : Char) (hPos : 0 < c.toNat) (hByte : c.toNat < 256)
    (k : Nat) (rest : Word) :
    www2idFrom unset (k + 1) (escaped c ++ rest) = c :: www2idFrom unset k rest := by
  rw [escaped]
  split
  · rename_i hAllowed
    have hPercent : c ≠ '%' := by
      rintro rfl
      exact absurd hAllowed (by decide)
    rw [List.singleton_append, www2idFrom, if_neg hPercent]
  · rw [List.cons_append, www2idFrom, if_pos rfl, hexstring, List.cons_append, List.cons_append,
      List.nil_append]
    change (match unhexstring unset (hexstring c) with
      | [] => _
      | d :: ds => _) = _
    rw [unhexstring_hexstring unset hPos hByte]
    rfl

theorem www2idFrom_id2www (unset : Word) {n : Word} (hName : IsName n) (k : Nat)
    (hLength : n.length ≤ k) : www2idFrom unset k (id2www n) = n := by
  induction n generalizing k with
  | nil => cases k <;> rfl
  | cons c cs ih =>
    obtain ⟨hPos, hByte⟩ := hName c List.mem_cons_self
    cases k with
    | zero => exact absurd hLength (by simp)
    | succ k =>
      rw [id2www, List.flatMap_cons, www2idFrom_escaped unset c hPos hByte]
      have hRest := ih (fun d hd => hName d (List.mem_cons_of_mem c hd)) k
        (Nat.le_of_succ_le_succ hLength)
      exact congrArg (List.cons c) hRest

end Libdap.Dap2
