import Libdap.Constraint.Word
import Mathlib.Data.List.Basic

/-! # The function calls of a constraint expression

`split_ce` takes the calls of functions that compute variables out of an expression. It goes from
parenthesis to parenthesis, in one server to the first that closes, in the other, at the first call, to the
one that matches.
-/

namespace Libdap.Constraint
open Core
set_option autoImplicit false

/-- `ce` up to `pos` and from there on, and `btp_function_ce`. -/
structure Scan where
  passed : Word
  rest : Word
  btp : Word
  deriving DecidableEq, Repr

def dropComma : Word → Word
  | [] => []
  | c :: cs => if c = ',' then cs else c :: cs

def leadingComma : Word → Word
  | [] => []
  | c :: _ => if c = ',' then [','] else []

/-- One more function on the list. -/
def addFunction (btp call : Word) : Word := (if btp.isEmpty then [] else btp ++ [',']) ++ call

def parenthesis (c : Char) (w : Word) : Option Nat := w.findIdx? (· == c)

section
variable (isBtp : Word → Bool)

/-- The body of the loop. -/
def turn (firstParen closingParen : Nat) (s : Scan) : Scan :=
  if isBtp (s.rest.take firstParen) then
    ⟨s.passed, dropComma (s.rest.drop (closingParen + 1)), addFunction s.btp (s.rest.take (closingParen + 1))⟩
  else
    ⟨s.passed ++ (s.rest.take (closingParen + 1) ++ leadingComma (s.rest.drop (closingParen + 1))),
      dropComma (s.rest.drop (closingParen + 1)), s.btp⟩

/-- `d_ce` and `d_btp_func_ce`; nothing, if the loop goes on and on. -/
def splitLoop : Nat → Scan → Option (Word × Word)
  | 0, _ => none
  | fuel + 1, s =>
    match parenthesis '(' s.rest, parenthesis ')' s.rest with
    | some firstParen, some closingParen => splitLoop fuel (turn isBtp firstParen closingParen s)
    | _, _ => some (s.passed ++ s.rest, s.btp)

/-- `ResponseBuilder::split_ce` -/
def splitCe (dCe expr : Word) : Option (Word × Word) :=
  let ce := if expr.isEmpty then dCe else expr
  splitLoop isBtp (ce.length + 1) ⟨[], ce, []⟩

/-- `find_closing_paren` behind a parenthesis at `pos - 1`. -/
def findClosingParen : Nat → Nat → Word → Option Nat
  | _, _, [] => none
  | count, pos, c :: cs =>
    if c = '(' then findClosingParen (count + 1) (pos + 1) cs
    else if c = ')' then if count = 1 then some pos else findClosingParen (count - 1) (pos + 1) cs
    else findClosingParen count (pos + 1) cs

/-- `BESDapResponseBuilder::split_ce` -/
def besSplitCe (dCe expr : Word) : Except String (Option (Word × Word)) :=
  let ce := if expr.isEmpty then dCe else expr
  match parenthesis '(' ce with
  | none => .ok (some (ce, []))
  | some firstParen =>
    match findClosingParen 1 (firstParen + 1) (ce.drop (firstParen + 1)) with
    | none => .error ("Expected to find a matching closing parenthesis in " ++ String.ofList ce)
    | some closingParen => .ok (splitLoop isBtp (ce.length + 1) (turn isBtp firstParen closingParen ⟨[], ce, []⟩))

end

/-! ## Parentheses -/

theorem parenthesis_some {c : Char} {w : Word} {i : Nat} (h : parenthesis c w = some i) :
    ∃ u v, w = u ++ c :: v ∧ u.length = i ∧ c ∉ u := by
  induction w generalizing i with
  | nil => cases h
  | cons d w ih =>
    rw [parenthesis, List.findIdx?_cons] at h
    split at h
    · rename_i hHere
      cases h
      exact ⟨[], w, by rw [eq_of_beq hHere]; rfl, rfl, List.not_mem_nil⟩
    · rename_i hNot
      obtain ⟨j, hRest, rfl⟩ := Option.map_eq_some_iff.mp h
      obtain ⟨u, v, rfl, rfl, hu⟩ := ih hRest
      refine ⟨d :: u, v, rfl, rfl, ?_⟩
      rw [List.mem_cons, not_or]
      refine ⟨?_, hu⟩
      rintro rfl
      exact hNot (beq_self_eq_true c)

theorem parenthesis_here {c : Char} {u : Word} (v : Word) (h : c ∉ u) :
    parenthesis c (u ++ c :: v) = some u.length := by
  induction u with
  | nil => rw [parenthesis, List.nil_append, List.findIdx?_cons, if_pos (beq_self_eq_true c)]; rfl
  | cons d u ih =>
    rw [List.mem_cons, not_or] at h
    have hRest := ih h.2
    rw [parenthesis] at hRest
    rw [parenthesis, List.cons_append, List.findIdx?_cons, if_neg (by simpa using Ne.symm h.1), hRest]
    rfl

theorem findClosingParen_some {count pos j : Nat} {w : Word} (h : findClosingParen count pos w = some j) :
    ∃ u v, w = u ++ ')' :: v ∧ j = pos + u.length := by
  induction w generalizing count pos with
  | nil => cases h
  | cons c w ih =>
    have hStep : ∀ k, findClosingParen k (pos + 1) w = some j → ∃ u v, c :: w = u ++ ')' :: v ∧ j = pos + u.length := by
      intro k hk
      obtain ⟨u, v, rfl, rfl⟩ := ih hk
      refine ⟨c :: u, v, rfl, ?_⟩
      rw [List.length_cons]
      omega
    rw [findClosingParen] at h
    split at h
    · exact hStep _ h
    · split at h
      · rename_i hClosing
        split at h
        · cases h
          exact ⟨[], w, by rw [hClosing]; rfl, rfl⟩
        · exact hStep _ h
      · exact hStep _ h

/-! ## The loop ends -/

theorem dropComma_length (w : Word) : (dropComma w).length ≤ w.length := by
  cases w with
  | nil => exact Nat.le_refl 0
  | cons c w =>
    rw [dropComma]
    split
    · exact Nat.le_succ _
    · exact Nat.le_refl _

theorem leadingComma_dropComma (w : Word) : leadingComma w ++ dropComma w = w := by
  cases w with
  | nil => rfl
  | cons c w =>
    rw [leadingComma, dropComma]
    split
    · rename_i hComma
      rw [hComma]
      rfl
    · rfl

theorem turn_rest (isBtp : Word → Bool) (i j : Nat) (s : Scan) :
    (turn isBtp i j s).rest = dropComma (s.rest.drop (j + 1)) := by
  rw [turn]
  split
  · rfl
  · rfl

/-- Each turn goes past a parenthesis at least. -/
theorem turn_shorter (isBtp : Word → Bool) (i : Nat) {s : Scan} {u v : Word} (h : s.rest = u ++ ')' :: v) :
    (turn isBtp i u.length s).rest.length < s.rest.length := by
  have hLess := dropComma_length (s.rest.drop (u.length + 1))
  rw [List.length_drop, h, List.length_append, List.length_cons] at hLess
  rw [turn_rest, h, List.length_append, List.length_cons]
  omega

theorem splitLoop_ends (isBtp : Word → Bool) {fuel : Nat} {s : Scan} (h : s.rest.length < fuel) :
    ∃ r, splitLoop isBtp fuel s = some r := by
  induction fuel generalizing s with
  | zero => cases h
  | succ fuel ih =>
    rw [splitLoop]
    split
    · rename_i i j hFirst hClosing
      obtain ⟨u, v, hRest, rfl, -⟩ := parenthesis_some hClosing
      exact ih (Nat.lt_of_lt_of_le (turn_shorter isBtp i hRest) (Nat.le_of_lt_succ h))
    · exact ⟨_, rfl⟩

theorem splitCe_ends (isBtp : Word → Bool) (dCe expr : Word) : ∃ r, splitCe isBtp dCe expr = some r :=
  splitLoop_ends isBtp (Nat.lt_succ_self _)

theorem besSplitCe_ends (isBtp : Word → Bool) (dCe expr : Word) : besSplitCe isBtp dCe expr ≠ .ok none := by
  rw [besSplitCe]
  generalize (if expr.isEmpty then dCe else expr) = ce
  cases hFirst : parenthesis '(' ce with
  | none =>
    rintro ⟨⟩
  | some i =>
    cases hClosing : findClosingParen 1 (i + 1) (ce.drop (i + 1)) with
    | none =>
      simp only [hClosing]
      rintro ⟨⟩
    | some j =>
      obtain ⟨u, v, hRest, rfl⟩ := findClosingParen_some hClosing
      have hCe : ce = (ce.take (i + 1) ++ u) ++ ')' :: v := by
        rw [List.append_assoc, ← hRest, List.take_append_drop]
      have hLength := congrArg List.length hRest
      rw [List.length_drop, List.length_append, List.length_cons] at hLength
      have hPlace : (ce.take (i + 1) ++ u).length = i + 1 + u.length := by
        rw [List.length_append, List.length_take]
        omega
      have hShorter := turn_shorter isBtp i (s := ⟨[], ce, []⟩) hCe
      rw [hPlace] at hShorter
      obtain ⟨r, hLoop⟩ := splitLoop_ends isBtp (Nat.lt_succ_of_lt hShorter)
      simp only [hClosing, hLoop]
      rintro ⟨⟩

end Libdap.Constraint
