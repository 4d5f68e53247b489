import Libdap.Constraint.SplitCe

/-! # Constraint expressions as they are written -/

namespace Libdap.Constraint
open Core
set_option autoImplicit false

/-- A character that is not between or around the parts of an expression. -/
def plainChar (c : Char) : Bool := !"(),&\"".toList.contains c

inductive Arg
  | text (w : Word)
  | quoted (w : Word)
  | call (name : Word) (args : List Arg)

mutual

def Arg.print : Arg → Word
  | .text w => w
  | .quoted w => '"' :: (w ++ ['"'])
  | .call name args => name ++ '(' :: (printArgs args ++ [')'])

def printArgs : List Arg → Word
  | [] => []
  | [a] => a.print
  | a :: b :: as => a.print ++ ',' :: printArgs (b :: as)

end

inductive Projection
  | var (w : Word)
  | call (name : Word) (args : List Arg)

def Projection.print : Projection → Word
  | .var w => w
  | .call name args => (Arg.call name args).print

/-- `&` and what is behind it: names, relations, constants and calls. -/
structure Selection where
  pieces : List Arg

def Selection.print (s : Selection) : Word := '&' :: s.pieces.flatMap Arg.print

structure Expression where
  projections : List Projection
  selections : List Selection

/-- With commas between them. -/
def commaJoined : List Word → Word
  | [] => []
  | [w] => w
  | w :: v :: ws => w ++ ',' :: commaJoined (v :: ws)

def Expression.print (e : Expression) : Word :=
  commaJoined (e.projections.map Projection.print) ++ e.selections.flatMap Selection.print

mutual

def Arg.wellFormed : Arg → Bool
  | .text w => w.all plainChar
  | .quoted w => !w.contains '"'
  | .call name args => !name.isEmpty && name.all plainChar && wellFormedArgs args

def wellFormedArgs : List Arg → Bool
  | [] => true
  | a :: as => a.wellFormed && wellFormedArgs as

end

def Projection.wellFormed : Projection → Bool
  | .var w => !w.isEmpty && w.all plainChar
  | .call name args => (Arg.call name args).wellFormed

structure Expression.WellFormed (e : Expression) : Prop where
  projections : ∀ p ∈ e.projections, p.wellFormed = true
  selections : ∀ s ∈ e.selections, wellFormedArgs s.pieces = true

section
variable (isBtp : Word → Bool)

def Projection.isFunction : Projection → Bool
  | .var _ => false
  | .call name _ => isBtp name

/-- The projections that call a function. -/
def Expression.functions (e : Expression) : List Projection :=
  e.projections.filter fun p => p.isFunction isBtp

/-- What is left without them. -/
def Expression.remaining (e : Expression) : Expression :=
  { e with projections := e.projections.filter fun p => !p.isFunction isBtp }

/-- The names on the list of functions are names. -/
def Registered : Prop := ∀ name, isBtp name = true → name ≠ [] ∧ name.all plainChar = true

/-- The functions are listed first. -/
def FunctionsFirst (e : Expression) : Prop := e.projections = e.functions isBtp ++ (e.remaining isBtp).projections

/-- No parenthesis closes with a call of a function right behind it or behind the next comma. -/
def NoCallBehind (w : Word) : Prop :=
  ∀ pre name suf, isBtp name = true → w ≠ pre ++ ')' :: (name ++ '(' :: suf) ∧ w ≠ pre ++ ')' :: ',' ::
    (name ++ '(' :: suf)

end

/-- No parenthesis closes but the call's own. -/
def Projection.Flat : Projection → Prop
  | .var _ => True
  | .call _ args => ')' ∉ printArgs args

mutual

/-- No parenthesis is in quotes. -/
def Arg.openQuotes : Arg → Bool
  | .text _ => true
  | .quoted w => !w.contains '(' && !w.contains ')'
  | .call _ args => openQuotesArgs args

def openQuotesArgs : List Arg → Bool
  | [] => true
  | a :: as => a.openQuotes && openQuotesArgs as

end

def Projection.openQuotes : Projection → Bool
  | .var _ => true
  | .call _ args => openQuotesArgs args

structure Expression.OpenQuotes (e : Expression) : Prop where
  projections : ∀ p ∈ e.projections, p.openQuotes = true
  selections : ∀ s ∈ e.selections, openQuotesArgs s.pieces = true

theorem plain_not_mem {w : Word} (h : w.all plainChar = true) {c : Char} (hc : plainChar c = false) : c ∉ w := by
  intro hMem
  have hPlain := List.all_eq_true.mp h c hMem
  rw [hc] at hPlain
  cases hPlain

/-! ## Parentheses that match -/

/-- What opens in the text closes in it. -/
def Balanced (w : Word) : Prop :=
  ∀ count pos more, findClosingParen (count + 1) pos (w ++ more) = findClosingParen (count + 1) (pos + w.length) more

theorem Balanced.append {w v : Word} (hw : Balanced w) (hv : Balanced v) : Balanced (w ++ v) := by
  intro count pos more
  rw [List.append_assoc, hw, hv, List.length_append, Nat.add_assoc]

theorem balanced_none {w : Word} (hOpen : '(' ∉ w) (hClosing : ')' ∉ w) : Balanced w := by
  intro count pos more
  induction w generalizing pos with
  | nil => rfl
  | cons c w ih =>
    rw [List.mem_cons, not_or] at hOpen hClosing
    rw [List.cons_append, findClosingParen, if_neg (Ne.symm hOpen.1), if_neg (Ne.symm hClosing.1),
      ih hOpen.2 hClosing.2, List.length_cons, Nat.add_right_comm, Nat.add_assoc]

theorem balanced_plain {w : Word} (h : w.all plainChar = true) : Balanced w :=
  balanced_none (plain_not_mem h rfl) (plain_not_mem h rfl)

theorem balanced_cons {c : Char} (hOpen : c ≠ '(') (hClosing : c ≠ ')') {w : Word} (h : Balanced w) :
    Balanced (c :: w) := by
  have hOne : Balanced [c] := by
    apply balanced_none
    · rw [List.mem_singleton]
      exact Ne.symm hOpen
    · rw [List.mem_singleton]
      exact Ne.symm hClosing
  exact hOne.append h

theorem balanced_parens {w : Word} (h : Balanced w) : Balanced ('(' :: (w ++ [')'])) := by
  intro count pos more
  rw [List.cons_append, List.append_assoc, findClosingParen, if_pos rfl, h, List.singleton_append, findClosingParen,
    if_neg (by decide), if_pos rfl, if_neg (by omega), Nat.add_sub_cancel, List.length_cons, List.length_append,
    List.length_singleton]
  congr 1
  omega

mutual

theorem arg_balanced : ∀ a : Arg, a.wellFormed = true → a.openQuotes = true → Balanced a.print
  | .text w, hWell, _ => balanced_plain hWell
  | .quoted w, _, hQuotes => by
    simp only [Arg.openQuotes, Bool.and_eq_true, Bool.not_eq_true', List.contains_eq_mem,
      decide_eq_false_iff_not] at hQuotes
    have hEnd : Balanced ['"'] := balanced_none (by decide) (by decide)
    exact balanced_cons (by decide) (by decide) ((balanced_none hQuotes.1 hQuotes.2).append hEnd)
  | .call name args, hWell, hQuotes => by
    simp only [Arg.wellFormed, Bool.and_eq_true] at hWell
    exact (balanced_plain hWell.1.2).append (balanced_parens (args_balanced args hWell.2 hQuotes))

theorem args_balanced : ∀ as : List Arg, wellFormedArgs as = true → openQuotesArgs as = true → Balanced (printArgs as)
  | [], _, _ => balanced_plain rfl
  | [a], hWell, hQuotes => by
    simp only [wellFormedArgs, openQuotesArgs, Bool.and_eq_true] at hWell hQuotes
    exact arg_balanced a hWell.1 hQuotes.1
  | a :: b :: as, hWell, hQuotes => by
    rw [wellFormedArgs, Bool.and_eq_true] at hWell
    rw [openQuotesArgs, Bool.and_eq_true] at hQuotes
    exact (arg_balanced a hWell.1 hQuotes.1).append
      (balanced_cons (by decide) (by decide) (args_balanced (b :: as) hWell.2 hQuotes.2))

end

theorem pieces_balanced : ∀ as : List Arg, wellFormedArgs as = true → openQuotesArgs as = true →
    Balanced (as.flatMap Arg.print)
  | [], _, _ => balanced_plain rfl
  | a :: as, hWell, hQuotes => by
    rw [wellFormedArgs, Bool.and_eq_true] at hWell
    rw [openQuotesArgs, Bool.and_eq_true] at hQuotes
    exact (arg_balanced a hWell.1 hQuotes.1).append (pieces_balanced as hWell.2 hQuotes.2)

theorem projection_balanced {p : Projection} (hWell : p.wellFormed = true) (hQuotes : p.openQuotes = true) :
    Balanced p.print := by
  cases p with
  | var w =>
    simp only [Projection.wellFormed, Bool.and_eq_true] at hWell
    exact balanced_plain hWell.2
  | call name args => exact arg_balanced (.call name args) hWell hQuotes

theorem commaJoined_balanced {ws : List Word} (h : ∀ w ∈ ws, Balanced w) : Balanced (commaJoined ws) := by
  induction ws with
  | nil => exact balanced_plain rfl
  | cons w ws ih =>
    rw [List.forall_mem_cons] at h
    cases ws with
    | nil => exact h.1
    | cons v ws => exact h.1.append (balanced_cons (by decide) (by decide) (ih h.2))

theorem expression_balanced {e : Expression} (hWell : e.WellFormed) (hQuotes : e.OpenQuotes) : Balanced e.print := by
  apply Balanced.append
  · apply commaJoined_balanced
    intro w hw
    obtain ⟨p, hp, rfl⟩ := List.mem_map.mp hw
    exact projection_balanced (hWell.projections p hp) (hQuotes.projections p hp)
  · have hSelections : ∀ ss : List Selection, (∀ s ∈ ss, wellFormedArgs s.pieces = true) →
        (∀ s ∈ ss, openQuotesArgs s.pieces = true) → Balanced (ss.flatMap Selection.print) := by
      intro ss hWell hQuotes
      induction ss with
      | nil => exact balanced_plain rfl
      | cons s ss ih =>
        rw [List.forall_mem_cons] at hWell hQuotes
        exact (balanced_cons (by decide) (by decide) (pieces_balanced s.pieces hWell.1 hQuotes.1)).append
          (ih hWell.2 hQuotes.2)
    exact hSelections e.selections hWell.selections hQuotes.selections

/-- The last parenthesis closes one level more than is needed to find another one before it. -/
theorem findClosingParen_before {k pos j : Nat} {w : Word} (hk : 1 ≤ k)
    (h : findClosingParen (k + 1) pos (w ++ [')']) = some j) : ∃ i, findClosingParen k pos w = some i := by
  induction w generalizing k pos with
  | nil =>
    rw [List.nil_append, findClosingParen, if_neg (by decide), if_pos rfl, if_neg (by omega)] at h
    cases h
  | cons c w ih =>
    rw [List.cons_append, findClosingParen] at h
    rw [findClosingParen]
    split at h
    · rename_i hOpen
      rw [if_pos hOpen]
      exact ih (Nat.le_succ_of_le hk) h
    · rename_i hOpen
      rw [if_neg hOpen]
      split at h
      · rename_i hClosing
        rw [if_pos hClosing]
        split
        · exact ⟨pos, rfl⟩
        · rename_i hMore
          rw [if_neg (by omega), Nat.add_sub_cancel] at h
          obtain ⟨k, rfl⟩ := Nat.exists_eq_add_one.mpr hk
          exact ih (by omega) h
      · rename_i hClosing
        rw [if_neg hClosing]
        exact ih hk h

theorem Balanced.closes {u v : Word} (h : Balanced (u ++ '(' :: v)) (hOpen : '(' ∉ u) :
    ∃ j, findClosingParen 1 (u.length + 1) v = some j := by
  have hEnd : findClosingParen 1 0 ((u ++ '(' :: v) ++ [')']) = some (0 + (u ++ '(' :: v).length) := by
    rw [h 0 0 [')'], findClosingParen, if_neg (by decide), if_pos rfl, if_pos rfl]
  have hNone : ')' ∉ u := by
    intro hMem
    obtain ⟨a, b, rfl, ha⟩ := List.eq_append_cons_of_mem hMem
    have hBefore : Balanced a := balanced_none (fun hIn => hOpen (List.mem_append_left _ hIn)) ha
    have hSame : ((a ++ ')' :: b) ++ '(' :: v) ++ [')'] = a ++ ')' :: (b ++ '(' :: (v ++ [')'])) := by simp
    rw [hSame, hBefore 0 0, findClosingParen, if_neg (by decide), if_pos rfl, if_pos rfl] at hEnd
    have hLength := Option.some.inj hEnd
    simp only [List.length_append, List.length_cons] at hLength
    omega
  have hStart : findClosingParen 1 0 ((u ++ '(' :: v) ++ [')']) = findClosingParen 2 (u.length + 1) (v ++ [')']) := by
    rw [List.append_assoc, balanced_none hOpen hNone 0 0, List.cons_append, findClosingParen, if_pos rfl]
    simp only [Nat.zero_add]
  exact findClosingParen_before (Nat.le_refl 1) (hStart.symm.trans hEnd)

end Libdap.Constraint
