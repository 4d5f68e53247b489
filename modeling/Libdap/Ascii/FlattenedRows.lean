import Libdap.Ascii.AsciiSequence
import Mathlib.Data.List.Forall2
import Mathlib.Algebra.Group.Nat.Even

/-! # The flattened join of nested rows

A table of nested rows stands for one line per innermost row, with the fields of all rows around it. The lines that the
printers write are compared with these.
-/

namespace Libdap.Ascii
open Constraint
set_option autoImplicit false

/-! ## Lines -/

namespace Field

def names (fs : List Field) : List Word := (fs.filter Field.sendP).map Field.fullName

def projected (fs : List Field) (ws : List Word) : List Word := ((fs.zip ws).filter fun f => f.1.sendP).map Prod.snd

def heldValues (fs : List Field) (ws : List Word) : List Word := ((fs.zip ws).filter fun f => f.1.held).map Prod.snd

end Field

namespace Nest

def columns : Nest → List Word
  | leaf fields => Field.names fields
  | parent before child after =>
    Field.names before ++ (if child.sendP then child.columns else []) ++ Field.names after

/-- One line for each innermost row. -/
def lines : (n : Nest) → List n.Row → List (List Word)
  | leaf fields, rows => rows.map fun values => Field.projected fields values.1
  | parent before child after, rows =>
    rows.flatMap fun (values, inner, values') =>
      (if child.sendP then child.lines inner else [[]]).map fun line =>
        Field.projected before values.1 ++ line ++ Field.projected after values'.1

end Nest

/-- The fields of a line, with separators between them. -/
def lineTokens (ws : List Word) : List Token := [.separator].intercalate (ws.map fun w => [.atom w])

/-- The header and the lines. -/
def tableTokens (header : List Word) (lines : List (List Word)) : List Token :=
  lineTokens header ++ [.newline] ++ [.newline].intercalate (lines.map lineTokens)

/-! ## Fields side by side -/

/-- Fields that others follow. -/
def led (ws : List Word) : List Token := ws.flatMap fun w => [.atom w, .separator]

/-- Fields that follow others. -/
def trailed (ws : List Word) : List Token := ws.flatMap fun w => [.separator, .atom w]

@[simp] theorem lineTokens_nil : lineTokens [] = [] := rfl

theorem lineTokens_cons (w : Word) (ws : List Word) : lineTokens (w :: ws) = .atom w :: trailed ws := by
  induction ws generalizing w with
  | nil => rfl
  | cons x ws ih =>
    have hRest : lineTokens (w :: x :: ws) = .atom w :: .separator :: lineTokens (x :: ws) := by
      simp only [lineTokens, List.map_cons, List.intercalate_cons_cons, List.cons_append, List.nil_append]
    rw [hRest, ih]
    rfl

theorem trailed_append (ws xs : List Word) : trailed (ws ++ xs) = trailed ws ++ trailed xs := List.flatMap_append

theorem lineTokens_append {ws : List Word} (h : ws ≠ []) (xs : List Word) :
    lineTokens (ws ++ xs) = lineTokens ws ++ trailed xs := by
  obtain ⟨w, ws, rfl⟩ := List.exists_cons_of_ne_nil h
  rw [List.cons_append, lineTokens_cons, lineTokens_cons, trailed_append, List.cons_append]

theorem led_lineTokens (ws : List Word) {xs : List Word} (h : xs ≠ []) :
    lineTokens (ws ++ xs) = led ws ++ lineTokens xs := by
  induction ws with
  | nil => rfl
  | cons w ws ih =>
    have hRest : ws ++ xs ≠ [] := fun hNil => h (List.append_eq_nil_iff.mp hNil).2
    obtain ⟨y, ys, hCons⟩ := List.exists_cons_of_ne_nil hRest
    have hHead : lineTokens (w :: (ws ++ xs)) = .atom w :: .separator :: lineTokens (ws ++ xs) := by
      rw [lineTokens_cons, hCons, lineTokens_cons]
      rfl
    rw [List.cons_append, hHead, ih]
    rfl

theorem lineTokens_around (ws : List Word) {line : List Word} (h : line ≠ []) (xs : List Word) :
    lineTokens (ws ++ line ++ xs) = led ws ++ lineTokens line ++ trailed xs := by
  rw [List.append_assoc, led_lineTokens _ (List.append_ne_nil_of_left_ne_nil h xs), lineTokens_append h,
    List.append_assoc]

theorem lineTokens_separator {ws : List Word} (h : ws ≠ []) : lineTokens ws ++ [.separator] = led ws := by
  induction ws with
  | nil => exact absurd rfl h
  | cons w ws ih =>
    cases ws with
    | nil => rfl
    | cons x ws =>
      have hHead : lineTokens (w :: x :: ws) = .atom w :: .separator :: lineTokens (x :: ws) := by
        rw [lineTokens_cons, lineTokens_cons]
        rfl
      rw [hHead, List.cons_append, List.cons_append, ih (List.cons_ne_nil _ _)]
      rfl

@[simp] theorem length_led (ws : List Word) : (led ws).length = 2 * ws.length := by
  simp [led, List.length_flatMap, Nat.mul_comm]

@[simp] theorem length_trailed (ws : List Word) : (trailed ws).length = 2 * ws.length := by
  simp [trailed, List.length_flatMap, Nat.mul_comm]

theorem length_lineTokens (ws : List Word) : (lineTokens ws).length = 2 * ws.length - 1 := by
  cases ws with
  | nil => rfl
  | cons w ws =>
    rw [lineTokens_cons, List.length_cons, length_trailed, List.length_cons]
    omega

/-! ## What the printers write -/

/-- Lines, each but the last with its end. -/
def textOf (lines : List (List Token)) : List Token := [.newline].intercalate lines

@[simp] theorem textOf_singleton (x : List Token) : textOf [x] = x := List.intercalate_singleton

theorem textOf_cons (x : List Token) {xs : List (List Token)} (h : xs ≠ []) :
    textOf (x :: xs) = x ++ [.newline] ++ textOf xs :=
  List.intercalate_cons_of_ne_nil h

theorem textOf_append {xs ys : List (List Token)} (hx : xs ≠ []) (hy : ys ≠ []) :
    textOf (xs ++ ys) = textOf xs ++ [.newline] ++ textOf ys := by
  induction xs with
  | nil => exact absurd rfl hx
  | cons x xs ih =>
    by_cases hLast : xs = []
    · rw [hLast, List.singleton_append, textOf_cons x hy, textOf_singleton]
    · rw [List.cons_append, textOf_cons x (List.append_ne_nil_of_left_ne_nil hLast ys), ih hLast, textOf_cons x hLast]
      simp only [List.append_assoc]

/-- The lines of the rows of one instance: what stands before its first row and after its last is of the outer rows. -/
def codeRows {R : Type} (row : List Token → List Token → R → List (List Token)) (leading : List Token) :
    List Token → List Token → List R → List (List Token)
  | pre, post, [] => [pre ++ post]
  | pre, post, r :: rs => if rs = [] then row pre post r else row pre [] r ++ codeRows row leading leading post rs

def codeRow : (n : Nest) → List Word → List Token → List Token → n.Row → List (List Token)
  | .leaf fields, _, pre, post, values => [pre ++ lineTokens (Field.projected fields values.1) ++ post]
  | .parent before child after, outerVars, pre, post, (values, rows, values') =>
    if child.sendP then
      let outerVars := outerVars ++ Field.heldValues before values.1
      codeRows (codeRow child outerVars) (lineTokens outerVars) (pre ++ led (Field.projected before values.1))
        (trailed (Field.projected after values'.1) ++ post) rows
    else [pre ++ lineTokens (Field.projected before values.1 ++ Field.projected after values'.1) ++ post]

/-- The lines that are written for the rows of an instance. -/
def codeLines (n : Nest) (outerVars : List Word) (pre post : List Token) (rows : List n.Row) : List (List Token) :=
  codeRows (codeRow n outerVars) (lineTokens outerVars) pre post rows

theorem codeRows_ne_nil {R : Type} {row : List Token → List Token → R → List (List Token)}
    (hRow : ∀ pre post r, row pre post r ≠ []) (leading pre post : List Token) (rows : List R) :
    codeRows row leading pre post rows ≠ [] := by
  cases rows with
  | nil => exact List.cons_ne_nil _ _
  | cons r rs =>
    rw [codeRows]
    split
    · exact hRow pre post r
    · exact List.append_ne_nil_of_left_ne_nil (hRow pre [] r) _

theorem codeRow_ne_nil (n : Nest) (outerVars : List Word) (pre post : List Token) (r : n.Row) :
    codeRow n outerVars pre post r ≠ [] := by
  induction n generalizing outerVars pre post with
  | leaf fields => exact List.cons_ne_nil _ _
  | parent before child after ih =>
    obtain ⟨values, rows, values'⟩ := r
    rw [codeRow]
    split
    · exact codeRows_ne_nil (fun pre post r => ih _ pre post r) _ _ _ rows
    · exact List.cons_ne_nil _ _

namespace RowState

theorem printAscii_separate (strm : List Token) (outerVars : List Word) (ws : List Word) (w : Word) :
    (RowState.mk (strm ++ lineTokens ws) outerVars ws.isEmpty).separate.printAscii w =
      ⟨strm ++ lineTokens (ws ++ [w]), outerVars, (ws ++ [w]).isEmpty⟩ := by
  cases ws with
  | nil => simp [separate, printAscii, lineTokens]
  | cons x ws =>
    rw [lineTokens_append (List.cons_ne_nil x ws)]
    simp [separate, printAscii, trailed]

theorem printFields_eq (strm : List Token) (outerVars ws : List Word) (fs : List Field) (vs : List Word) :
    printFields ⟨strm ++ lineTokens ws, outerVars, ws.isEmpty⟩ fs vs =
      ⟨strm ++ lineTokens (ws ++ Field.projected fs vs), outerVars ++ Field.heldValues fs vs,
        (ws ++ Field.projected fs vs).isEmpty⟩ := by
  rw [printFields, Field.projected, Field.heldValues]
  induction fs.zip vs generalizing outerVars ws with
  | nil => simp
  | cons f rest ih =>
    rw [List.foldl_cons, printField]
    by_cases hHeld : f.1.held = true
    · by_cases hSend : f.1.sendP = true
      · rw [if_pos hHeld, if_pos hSend, printAscii_separate, ih]
        simp [hHeld, hSend]
      · rw [if_pos hHeld, if_neg hSend, ih]
        simp [hHeld, hSend]
    · have hSend : ¬ f.1.sendP = true := fun h => hHeld (f.1.hHeld h)
      rw [if_neg hHeld, ih]
      simp [hHeld, hSend]

theorem printFields_first (strm : List Token) (outerVars : List Word) (fs : List Field) (vs : List Word) :
    printFields ⟨strm, outerVars, true⟩ fs vs =
      ⟨strm ++ lineTokens (Field.projected fs vs), outerVars ++ Field.heldValues fs vs,
        (Field.projected fs vs).isEmpty⟩ := by
  have h := printFields_eq strm outerVars [] fs vs
  rwa [lineTokens_nil, List.append_nil, List.nil_append] at h

theorem printFields_trailed (strm : List Token) (outerVars : List Word) (fs : List Field) (vs : List Word) :
    (printFields ⟨strm, outerVars, false⟩ fs vs).strm = strm ++ trailed (Field.projected fs vs) := by
  rw [printFields, Field.projected]
  induction fs.zip vs generalizing strm outerVars with
  | nil => simp [trailed]
  | cons f rest ih =>
    rw [List.foldl_cons, printField]
    by_cases hHeld : f.1.held = true
    · by_cases hSend : f.1.sendP = true
      · rw [if_pos hHeld, if_pos hSend]
        change (List.foldl printField ⟨strm ++ [.separator] ++ [.atom f.2], _, false⟩ rest).strm = _
        rw [ih]
        simp [hSend, trailed]
      · rw [if_pos hHeld, if_neg hSend, ih]
        simp [hSend]
    · have hSend : ¬ f.1.sendP = true := fun h => hHeld (f.1.hHeld h)
      rw [if_neg hHeld, ih]
      simp [hSend]

/-- The separator before an inner sequence. -/
theorem separate_led (strm : List Token) (outerVars ws : List Word) :
    (RowState.mk (strm ++ lineTokens ws) outerVars ws.isEmpty).separate = ⟨strm ++ led ws, outerVars, false⟩ := by
  cases ws with
  | nil => rfl
  | cons w ws =>
    rw [← lineTokens_separator (List.cons_ne_nil w ws), ← List.append_assoc]
    rfl

end RowState

namespace AsciiSequence

theorem printLeadingVars_eq (outerVars : List Word) (strm : List Token) :
    printLeadingVars outerVars strm = strm ++ lineTokens outerVars := by
  have hLoop : ∀ ws vars : List Word, List.foldl (fun s value => s.separate.printAscii value)
      (RowState.mk (strm ++ lineTokens ws) [] ws.isEmpty) vars =
        ⟨strm ++ lineTokens (ws ++ vars), [], (ws ++ vars).isEmpty⟩ := by
    intro ws vars
    induction vars generalizing ws with
    | nil => simp
    | cons w vars ih => rw [List.foldl_cons, RowState.printAscii_separate, ih, List.append_assoc, List.singleton_append]
  have hStart := hLoop [] outerVars
  rw [lineTokens_nil, List.append_nil] at hStart
  exact congrArg RowState.strm hStart

theorem rowsLoop_eq {R : Type} {printRow : R → List Word → List Token → List Token} {outerVars : List Word}
    {row : List Token → List Token → R → List (List Token)} (hNonempty : ∀ pre post r, row pre post r ≠ [])
    (hRow : ∀ r strm pre post, printRow r outerVars (strm ++ pre) ++ post = strm ++ textOf (row pre post r))
    {rows : List R} (hRows : rows ≠ []) (i : Nat) (strm pre post : List Token) :
    rowsLoop printRow outerVars i rows (strm ++ pre) ++ post =
      strm ++ textOf (codeRows row (lineTokens outerVars) (pre ++ if 0 < i then lineTokens outerVars else []) post
        rows) := by
  induction rows generalizing i strm pre with
  | nil => exact absurd rfl hRows
  | cons r rows ih =>
    have hLeading : (if 0 < i ∧ outerVars ≠ [] then printLeadingVars outerVars (strm ++ pre) else strm ++ pre) =
        strm ++ (pre ++ if 0 < i then lineTokens outerVars else []) := by
      by_cases hNil : outerVars = []
      · simp [hNil]
      · by_cases hFirst : 0 < i
        · rw [if_pos ⟨hFirst, hNil⟩, if_pos hFirst, printLeadingVars_eq, List.append_assoc]
        · rw [if_neg (fun h => hFirst h.1), if_neg hFirst, List.append_nil]
    rw [rowsLoop, codeRows, hLeading]
    by_cases hLast : rows = []
    · rw [if_pos hLast, if_pos hLast]
      exact hRow r strm _ post
    · have hHere := hRow r strm (pre ++ if 0 < i then lineTokens outerVars else []) []
      rw [List.append_nil] at hHere
      have hRest := ih hLast (i + 1) (strm ++ textOf (row (pre ++ if 0 < i then lineTokens outerVars else []) [] r) ++
        [.newline]) []
      rw [List.append_nil, if_pos (Nat.succ_pos i), List.nil_append] at hRest
      rw [if_neg hLast, if_neg hLast, hHere, hRest,
        textOf_append (hNonempty _ _ r) (codeRows_ne_nil hNonempty _ _ _ rows)]
      simp only [List.append_assoc]

theorem rowsLoop_zero {R : Type} {printRow : R → List Word → List Token → List Token} {outerVars : List Word}
    {row : List Token → List Token → R → List (List Token)} (hNonempty : ∀ pre post r, row pre post r ≠ [])
    (hRow : ∀ r strm pre post, printRow r outerVars (strm ++ pre) ++ post = strm ++ textOf (row pre post r))
    (rows : List R) (strm pre post : List Token) :
    rowsLoop printRow outerVars 0 rows (strm ++ pre) ++ post =
      strm ++ textOf (codeRows row (lineTokens outerVars) pre post rows) := by
  by_cases hRows : rows = []
  · rw [hRows, rowsLoop, codeRows, textOf_singleton, List.append_assoc]
  · have h := rowsLoop_eq hNonempty hRow hRows 0 strm pre post
    rwa [if_neg (Nat.lt_irrefl 0), List.append_nil] at h

theorem printAsciiRow_eq (n : Nest) (r : n.Row) (outerVars : List Word) (strm pre post : List Token) :
    printAsciiRow n r outerVars (strm ++ pre) ++ post = strm ++ textOf (codeRow n outerVars pre post r) := by
  induction n generalizing outerVars strm pre post with
  | leaf fields =>
    rw [printAsciiRow, RowState.printFields_first, codeRow, textOf_singleton]
    simp only [List.append_assoc]
  | parent before child after ih =>
    obtain ⟨values, rows, values'⟩ := r
    rw [printAsciiRow, codeRow, RowState.printFields_first]
    by_cases hChild : child.sendP = true
    · rw [if_pos hChild, if_pos hChild, RowState.separate_led]
      dsimp only
      rw [RowState.printFields_trailed, List.append_assoc, List.append_assoc]
      exact rowsLoop_zero (fun pre post r => codeRow_ne_nil child _ pre post r)
        (fun r strm pre post => ih r _ strm pre post)
        rows strm _ _
    · rw [if_neg hChild, if_neg hChild, RowState.printFields_eq, textOf_singleton]
      simp only [List.append_assoc]

theorem printAsciiRows_eq (n : Nest) (rows : List n.Row) (strm : List Token) :
    printAsciiRows n rows [] strm = strm ++ textOf (codeLines n [] [] [] rows) := by
  have h := rowsLoop_zero (codeRow_ne_nil n []) (fun r => printAsciiRow_eq n r []) rows strm [] []
  rwa [List.append_nil, List.append_nil] at h

/-! ### The header -/

theorem printNames_eq (strm : List Token) (ws : List Word) (fs : List Field) :
    printNames ⟨strm ++ lineTokens ws, [], ws.isEmpty⟩ fs =
      ⟨strm ++ lineTokens (ws ++ Field.names fs), [], (ws ++ Field.names fs).isEmpty⟩ := by
  rw [printNames, Field.names]
  induction fs generalizing ws with
  | nil => simp
  | cons f fs ih =>
    rw [List.foldl_cons]
    by_cases hSend : f.sendP = true
    · rw [if_pos hSend, RowState.printAscii_separate, ih]
      simp [hSend]
    · rw [if_neg hSend, ih]
      simp [hSend]

theorem printNames_trailed (strm : List Token) (fs : List Field) :
    (printNames ⟨strm, [], false⟩ fs).strm = strm ++ trailed (Field.names fs) := by
  rw [printNames, Field.names]
  induction fs generalizing strm with
  | nil => simp [trailed]
  | cons f fs ih =>
    rw [List.foldl_cons]
    by_cases hSend : f.sendP = true
    · rw [if_pos hSend]
      change (List.foldl _ (RowState.mk (strm ++ [.separator] ++ [.atom f.fullName]) [] false) fs).strm = _
      rw [ih]
      simp [hSend, trailed]
    · rw [if_neg hSend, ih]
      simp [hSend]

end AsciiSequence

namespace Nest

theorem columns_ne_nil {n : Nest} (h : n.sendP) : n.columns ≠ [] := by
  have hNames {fs : List Field} (hAny : fs.any Field.sendP) : Field.names fs ≠ [] := by
    obtain ⟨f, hf, hSend⟩ := List.any_eq_true.mp hAny
    exact List.ne_nil_of_mem (List.mem_map_of_mem (List.mem_filter.mpr ⟨hf, hSend⟩))
  induction n with
  | leaf fields => exact hNames h
  | parent before child after ih =>
    rw [sendP, Bool.or_eq_true, Bool.or_eq_true] at h
    rw [columns]
    rcases h with (h | h) | h
    · simp [hNames h]
    · simp [h, ih h]
    · simp [hNames h]

end Nest

theorem AsciiSequence.printHeader_eq (n : Nest) (strm : List Token) :
    printHeader n strm = strm ++ lineTokens n.columns := by
  have hFirst (strm : List Token) (fs : List Field) : printNames ⟨strm, [], true⟩ fs =
      ⟨strm ++ lineTokens (Field.names fs), [], (Field.names fs).isEmpty⟩ := by
    have h := printNames_eq strm [] fs
    rwa [lineTokens_nil, List.append_nil, List.nil_append] at h
  induction n generalizing strm with
  | leaf fields => rw [printHeader, hFirst, Nest.columns]
  | parent before child after ih =>
    rw [printHeader, Nest.columns, hFirst]
    by_cases hChild : child.sendP = true
    · rw [if_pos hChild, if_pos hChild, RowState.separate_led]
      dsimp only
      rw [printNames_trailed, ih, lineTokens_around _ (Nest.columns_ne_nil hChild)]
      simp only [List.append_assoc]
    · rw [if_neg hChild, if_neg hChild, printNames_eq, List.append_nil]

end Libdap.Ascii
