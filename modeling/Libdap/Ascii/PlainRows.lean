import Libdap.Ascii.FlattenedRows
import Mathlib.Algebra.Group.Nat.Even

/-! # The tables that are printed as their join

Without a separator after the fields that are printed again, a line of them is one field short, and the fields behind an
inner sequence stand on its last line only. The tables that come out as their join are those in which this does not show.
-/

namespace Libdap.Ascii
open Constraint
set_option autoImplicit false

namespace Nest

/-- Every instance has a row, and exactly one where fields of outer rows stand before or behind. -/
def Plain : (n : Nest) → Bool → List n.Row → Prop
  | leaf _, once, rows => rows ≠ [] ∧ (once = true → rows.length = 1)
  | parent before child after, once, rows =>
    rows ≠ [] ∧ (once = true → rows.length = 1) ∧
      ∀ row ∈ rows, child.sendP → child.Plain (once || before.any Field.held || after.any Field.sendP) row.2.1

/-- Nothing is to be printed of the rows. -/
def Silent : (n : Nest) → List n.Row → Prop
  | leaf _, rows => rows = []
  | parent before child after, rows =>
    rows = [] ∨ ∃ row, rows = [row] ∧ child.sendP ∧ before.any Field.sendP = false ∧ after.any Field.sendP = false ∧
      child.Silent row.2.1

/-- The header and the flattened join, with a field for each column on every line. -/
def Right (n : Nest) (rows : List n.Row) : Prop :=
  AsciiSequence.printAscii n rows = tableTokens n.columns (n.lines rows) ∧
    ∀ line ∈ n.lines rows, line.length = n.columns.length

end Nest

/-! ## Fields -/

namespace Field

theorem length_projected {fs : List Field} {vs : List Word} (h : vs.length = fs.length) :
    (projected fs vs).length = (names fs).length := by
  induction fs generalizing vs with
  | nil => simp [projected, names]
  | cons f fs ih =>
    obtain _ | ⟨v, vs⟩ := vs
    · cases h
    · have hRest := ih (Nat.succ.inj h)
      rw [projected, names] at hRest ⊢
      by_cases hSend : f.sendP = true <;> simp_all

theorem length_heldValues {fs : List Field} {vs : List Word} (h : vs.length = fs.length) :
    (heldValues fs vs).length = (fs.filter held).length := by
  induction fs generalizing vs with
  | nil => simp [heldValues]
  | cons f fs ih =>
    obtain _ | ⟨v, vs⟩ := vs
    · cases h
    · have hRest := ih (Nat.succ.inj h)
      rw [heldValues] at hRest ⊢
      by_cases hHeld : f.held = true <;> simp_all

theorem projected_eq_nil {fs : List Field} (vs : Values fs) : projected fs vs.1 = [] ↔ fs.any sendP = false := by
  rw [← List.length_eq_zero_iff, length_projected vs.2, names, List.length_map, List.length_eq_zero_iff,
    List.filter_eq_nil_iff, List.any_eq_false]

theorem heldValues_eq_nil {fs : List Field} (vs : Values fs) : heldValues fs vs.1 = [] ↔ fs.any held = false := by
  rw [← List.length_eq_zero_iff, length_heldValues vs.2, List.length_eq_zero_iff, List.filter_eq_nil_iff,
    List.any_eq_false]

theorem sendP_of_held {fs : List Field} (h : fs.any held = false) : fs.any sendP = false := by
  rw [List.any_eq_false] at h ⊢
  exact fun f hf hSend => h f hf (f.hHeld hSend)

end Field

/-! ## The lines of one row -/

namespace Nest

def rowLines : (n : Nest) → n.Row → List (List Word)
  | leaf fields, values => [Field.projected fields values.1]
  | parent before child after, (values, inner, values') =>
    (if child.sendP then child.lines inner else [[]]).map fun line =>
      Field.projected before values.1 ++ line ++ Field.projected after values'.1

theorem lines_eq (n : Nest) (rows : List n.Row) : n.lines rows = rows.flatMap n.rowLines := by
  cases n with
  | leaf fields => exact List.map_eq_flatMap
  | parent before child after => rfl

theorem lines_cons (n : Nest) (r : n.Row) (rows : List n.Row) : n.lines (r :: rows) = n.rowLines r ++ n.lines rows := by
  rw [lines_eq, lines_eq, List.flatMap_cons]

theorem lines_singleton (n : Nest) (r : n.Row) : n.lines [r] = n.rowLines r := by
  rw [lines_eq, List.flatMap_singleton]

variable {before after : List Field} {child : Nest}

theorem rowLines_inner (h : child.sendP) (r : (parent before child after).Row) :
    (parent before child after).rowLines r = (child.lines r.2.1).map fun line =>
      Field.projected before r.1.1 ++ line ++ Field.projected after r.2.2.1 :=
  congrArg (List.map fun line => Field.projected before r.1.1 ++ line ++ Field.projected after r.2.2.1) (if_pos h)

theorem rowLines_flat (h : ¬ child.sendP) (r : (parent before child after).Row) :
    (parent before child after).rowLines r = [Field.projected before r.1.1 ++ Field.projected after r.2.2.1] := by
  have hLines : (if child.sendP = true then child.lines r.2.1 else [[]]) = [[]] := if_neg h
  have hRow := congrArg (List.map fun line => Field.projected before r.1.1 ++ line ++ Field.projected after r.2.2.1)
      hLines
  rwa [List.map_singleton, List.append_nil] at hRow

theorem length_line {n : Nest} {rows : List n.Row} {line : List Word} (h : line ∈ n.lines rows) :
    line.length = n.columns.length := by
  induction n generalizing line with
  | leaf fields =>
    obtain ⟨values, -, rfl⟩ := List.mem_map.mp h
    exact Field.length_projected values.2
  | parent before child after ih =>
    obtain ⟨⟨values, inner, values'⟩, -, hLine⟩ := List.mem_flatMap.mp h
    obtain ⟨line, hInner, rfl⟩ := List.mem_map.mp hLine
    have hLength : line.length = (if child.sendP then child.columns else []).length := by
      split at hInner
      · rename_i hChild
        rw [if_pos hChild]
        exact ih hInner
      · rename_i hChild
        rw [if_neg hChild, List.mem_singleton.mp hInner]
    rw [columns, List.length_append, List.length_append, List.length_append, List.length_append, hLength,
      Field.length_projected values.2, Field.length_projected values'.2]

theorem line_ne_nil {n : Nest} (hSend : n.sendP) {rows : List n.Row} {line : List Word} (h : line ∈ n.lines rows) :
    line ≠ [] := by
  intro hNil
  have hLength := length_line h
  rw [hNil, List.length_nil] at hLength
  exact columns_ne_nil hSend (List.length_eq_zero_iff.mp hLength.symm)

/-- The instances around the projected fields all have a row. -/
def FullRow : (n : Nest) → n.Row → Prop
  | leaf _, _ => True
  | parent _ child _, row => child.sendP → row.2.1 ≠ [] ∧ ∀ r ∈ row.2.1, child.FullRow r

end Nest

/-! ## How many lines there are -/

section CodeRows

variable {R : Type} {row : List Token → List Token → R → List (List Token)} {lines : R → List (List Word)}
  {leading pre post : List Token} {rows : List R}

theorem codeRows_singleton (r : R) : codeRows row leading pre post [r] = row pre post r := if_pos rfl

theorem codeRows_cons (r : R) (h : rows ≠ []) :
    codeRows row leading pre post (r :: rows) = row pre [] r ++ codeRows row leading leading post rows :=
  if_neg h

/-- Every join line has a line of its own, and all lines are such only where no instance is empty. -/
theorem codeRows_length {Good : R → Prop} (hRow : ∀ pre post r, (lines r).length ≤ (row pre post r).length ∧
      ((row pre post r).length ≤ (lines r).length → Good r)) :
    (rows.flatMap lines).length ≤ (codeRows row leading pre post rows).length ∧
      ((codeRows row leading pre post rows).length ≤ (rows.flatMap lines).length →
        rows ≠ [] ∧ ∀ r ∈ rows, Good r) := by
  induction rows generalizing pre with
  | nil => exact ⟨Nat.zero_le _, fun h => absurd h (Nat.not_succ_le_zero 0)⟩
  | cons r rows ih =>
    by_cases hLast : rows = []
    · subst hLast
      rw [codeRows_singleton, List.flatMap_cons, List.flatMap_nil, List.append_nil]
      obtain ⟨hLe, hGood⟩ := hRow pre post r
      exact ⟨hLe, fun h => ⟨List.cons_ne_nil _ _, fun s hs => by rw [List.mem_singleton.mp hs]; exact hGood h⟩⟩
    · obtain ⟨hLe, hGood⟩ := hRow pre [] r
      obtain ⟨hLes, hGoods⟩ := @ih leading
      rw [codeRows_cons r hLast, List.flatMap_cons, List.length_append, List.length_append]
      refine ⟨by omega, fun h => ⟨List.cons_ne_nil _ _, fun s hs => ?_⟩⟩
      rcases List.mem_cons.mp hs with rfl | hs
      · exact hGood (by omega)
      · exact (hGoods (by omega)).2 s hs

theorem codeRows_length_le (hRow : ∀ pre post r, (lines r).length ≤ (row pre post r).length) :
    (rows.flatMap lines).length ≤ (codeRows row leading pre post rows).length :=
  (codeRows_length fun pre post r => ⟨hRow pre post r, fun _ => trivial⟩).1

/-- Rows whose lines together are the join are each printed as their join. -/
theorem codeRows_split (hRow : ∀ pre post r, (lines r).length ≤ (row pre post r).length)
    (h : codeRows row [] [] [] rows = (rows.flatMap lines).map lineTokens) {r : R} (hr : r ∈ rows) :
    row [] [] r = (lines r).map lineTokens := by
  induction rows with
  | nil => exact absurd hr List.not_mem_nil
  | cons s rows ih =>
    by_cases hLast : rows = []
    · subst hLast
      rw [codeRows_singleton, List.flatMap_cons, List.flatMap_nil, List.append_nil] at h
      rwa [List.mem_singleton.mp hr]
    · rw [codeRows_cons s hLast, List.flatMap_cons, List.map_append] at h
      have hLengths := congrArg List.length h
      have hHere := hRow [] [] s
      have hRest : (rows.flatMap lines).length ≤ (codeRows row [] [] [] rows).length := codeRows_length_le hRow
      rw [List.length_append, List.length_append, List.length_map, List.length_map] at hLengths
      obtain ⟨hEq, hEqs⟩ := List.append_inj h (by rw [List.length_map]; omega)
      rcases List.mem_cons.mp hr with rfl | hr
      · exact hEq
      · exact ih hEqs hr

/-- Without fields of outer rows the lines of the rows stand one after the other. -/
theorem codeRows_flatMap (h : rows ≠ []) : codeRows row [] [] [] rows = rows.flatMap (row [] []) := by
  induction rows with
  | nil => exact absurd rfl h
  | cons r rows ih =>
    by_cases hLast : rows = []
    · rw [hLast, codeRows_singleton, List.flatMap_cons, List.flatMap_nil, List.append_nil]
    · rw [codeRows_cons r hLast, List.flatMap_cons, ih hLast]

end CodeRows

section CodeRow

variable {before after : List Field} {child : Nest} (outerVars : List Word) (pre post : List Token)

theorem codeRow_inner (h : child.sendP) (r : (Nest.parent before child after).Row) :
    codeRow (.parent before child after) outerVars pre post r =
      codeLines child (outerVars ++ Field.heldValues before r.1.1) (pre ++ led (Field.projected before r.1.1))
        (trailed (Field.projected after r.2.2.1) ++ post) r.2.1 :=
  if_pos h

theorem codeRow_flat (h : ¬ child.sendP) (r : (Nest.parent before child after).Row) :
    codeRow (.parent before child after) outerVars pre post r =
      [pre ++ lineTokens (Field.projected before r.1.1 ++ Field.projected after r.2.2.1) ++ post] :=
  if_neg h

end CodeRow

theorem codeRow_length (n : Nest) (outerVars : List Word) (pre post : List Token) (r : n.Row) :
    (n.rowLines r).length ≤ (codeRow n outerVars pre post r).length ∧
      ((codeRow n outerVars pre post r).length ≤ (n.rowLines r).length → n.FullRow r) := by
  induction n generalizing outerVars pre post with
  | leaf fields => exact ⟨Nat.le_refl _, fun _ => trivial⟩
  | parent before child after ih =>
    obtain ⟨values, inner, values'⟩ := r
    rw [codeRow, Nest.rowLines, List.length_map]
    by_cases hChild : child.sendP = true
    · rw [if_pos hChild, if_pos hChild, Nest.lines_eq]
      obtain ⟨hLe, hGood⟩ := codeRows_length (fun pre post r => ih _ pre post r)
      exact ⟨hLe, fun h _ => hGood h⟩
    · rw [if_neg hChild, if_neg hChild]
      exact ⟨Nat.le_refl _, fun _ h => absurd h hChild⟩

theorem codeLines_length (n : Nest) (outerVars : List Word) (pre post : List Token) (rows : List n.Row) :
    (codeLines n outerVars pre post rows).length ≤ (n.lines rows).length → rows ≠ [] ∧ ∀ r ∈ rows, n.FullRow r := by
  rw [Nest.lines_eq]
  exact (codeRows_length (codeRow_length n outerVars)).2

/-! ## How long a line is -/

/-- The first line continues what stands before it, and only the last one has what follows the rows. After fields of
outer rows every line but the first lacks a separator. -/
def Shaped (columns : Nat) (led : Prop) (pre post : List Token) (lines : List (List Token)) : Prop :=
  ∃ first rest, lines = first :: rest ∧
    first.length + 1 ≤ pre.length + 2 * columns + (if rest = [] then post.length else 0) ∧
    (led → Even post.length → Odd (first.length + pre.length) ∧ ∀ line ∈ rest, Even line.length)

theorem shaped_single {columns : Nat} {ws : List Word} (hLength : ws.length = columns) (hSome : ws ≠ []) (led : Prop)
    (pre post : List Token) : Shaped columns led pre post [pre ++ lineTokens ws ++ post] := by
  have hPos : 0 < ws.length := List.length_pos_of_ne_nil hSome
  have hFirst : (pre ++ lineTokens ws ++ post).length = pre.length + (2 * columns - 1) + post.length := by
    rw [List.length_append, List.length_append, length_lineTokens, hLength]
  refine ⟨_, [], rfl, ?_, fun _ hPost => ⟨?_, fun line h => absurd h List.not_mem_nil⟩⟩
  · rw [hFirst, if_pos rfl]
    omega
  · rw [hFirst]
    rw [Nat.even_iff] at hPost
    rw [Nat.odd_iff]
    omega

theorem codeRows_shaped {R : Type} {row : List Token → List Token → R → List (List Token)} {columns : Nat} {led : Prop}
    {leading pre post : List Token} {rows : List R}
    (hRow : ∀ r ∈ rows, ∀ pre post, Shaped columns led pre post (row pre post r))
    (hLeading : led → Odd leading.length) (hRows : rows ≠ []) :
    Shaped columns led pre post (codeRows row leading pre post rows) := by
  induction rows generalizing pre with
  | nil => exact absurd rfl hRows
  | cons r rows ih =>
    by_cases hLast : rows = []
    · subst hLast
      rw [codeRows_singleton]
      exact hRow r List.mem_cons_self pre post
    · obtain ⟨first, rest, hLines, hShort, hParity⟩ := hRow r List.mem_cons_self pre []
      obtain ⟨first', rest', hLines', -, hParity'⟩ :=
        @ih leading (fun s hs => hRow s (List.mem_cons_of_mem r hs)) hLast
      rw [codeRows_cons r hLast, hLines, hLines']
      refine ⟨first, rest ++ first' :: rest', rfl, ?_, fun hLed hPost => ?_⟩
      · rw [if_neg (List.append_ne_nil_of_right_ne_nil rest (List.cons_ne_nil _ _))]
        rwa [List.length_nil, ite_self] at hShort
      · obtain ⟨hFirst, hRest⟩ := hParity hLed (by simp)
        obtain ⟨hFirst', hRest'⟩ := hParity' hLed hPost
        have hSecond : Even first'.length := by
          have hLead := hLeading hLed
          rw [Nat.odd_iff] at hLead hFirst'
          rw [Nat.even_iff]
          omega
        refine ⟨hFirst, fun line hLine => ?_⟩
        rcases List.mem_append.mp hLine with hLine | hLine
        · exact hRest line hLine
        · rcases List.mem_cons.mp hLine with rfl | hLine
          · exact hSecond
          · exact hRest' line hLine

theorem odd_leading {outerVars : List Word} (h : outerVars ≠ []) : Odd (lineTokens outerVars).length := by
  have hPos : 0 < outerVars.length := List.length_pos_of_ne_nil h
  rw [length_lineTokens, Nat.odd_iff]
  omega

theorem codeRow_shaped {n : Nest} (hSend : n.sendP) (outerVars : List Word) (pre post : List Token) {r : n.Row}
    (hFull : n.FullRow r) :
    Shaped n.columns.length (outerVars ≠ []) pre post (codeRow n outerVars pre post r) := by
  induction n generalizing outerVars pre post with
  | leaf fields =>
    have hLength : (Field.projected fields r.1).length = (Nest.leaf fields).columns.length := Field.length_projected r.2
    refine shaped_single hLength (fun hNil => ?_) _ pre post
    rw [hNil] at hLength
    exact Nest.columns_ne_nil hSend (List.length_eq_zero_iff.mp hLength.symm)
  | parent before child after ih =>
    obtain ⟨values, inner, values'⟩ := r
    have hBefore := Field.length_projected values.2
    have hAfter := Field.length_projected values'.2
    rw [codeRow]
    by_cases hChild : child.sendP = true
    · have hColumns : (Nest.parent before child after).columns.length =
          (Field.names before).length + child.columns.length + (Field.names after).length := by
        rw [Nest.columns, if_pos hChild, List.length_append, List.length_append]
      obtain ⟨hInner, hRows⟩ := hFull hChild
      rw [if_pos hChild, hColumns]
      dsimp only
      obtain ⟨first, rest, hLines, hShort, hParity⟩ := @codeRows_shaped _ _ _
        (outerVars ++ Field.heldValues before values.1 ≠ []) _ (pre ++ led (Field.projected before values.1))
        (trailed (Field.projected after values'.1) ++ post) _
        (fun r hr pre post => ih hChild (outerVars ++ Field.heldValues before values.1) pre post (hRows r hr))
        odd_leading hInner
      refine ⟨first, rest, hLines, ?_, fun hLed hPost => ?_⟩
      · rw [List.length_append, List.length_append, length_led, length_trailed] at hShort
        split at hShort
        · rename_i hRest
          rw [if_pos hRest]
          omega
        · rename_i hRest
          rw [if_neg hRest]
          omega
      · obtain ⟨hFirst, hRest⟩ := hParity (List.append_ne_nil_of_left_ne_nil hLed _) (by
          rw [List.length_append, length_trailed]
          exact (even_two_mul _).add hPost)
        refine ⟨?_, hRest⟩
        rw [List.length_append, length_led, Nat.odd_iff] at hFirst
        rw [Nat.odd_iff]
        omega
    · have hColumns : (Nest.parent before child after).columns.length =
          (Field.names before).length + (Field.names after).length := by
        rw [Nest.columns, if_neg hChild, List.append_nil, List.length_append]
      have hLength : (Field.projected before values.1 ++ Field.projected after values'.1).length =
          (Nest.parent before child after).columns.length := by
        rw [List.length_append, hColumns, hBefore, hAfter]
      rw [if_neg hChild]
      refine shaped_single hLength (fun hNil => ?_) _ pre post
      rw [hNil] at hLength
      exact Nest.columns_ne_nil hSend (List.length_eq_zero_iff.mp hLength.symm)

theorem codeLines_shaped {n : Nest} (hSend : n.sendP) (outerVars : List Word) (pre post : List Token)
    {rows : List n.Row}
    (hRows : rows ≠ []) (hFull : ∀ r ∈ rows, n.FullRow r) :
    Shaped n.columns.length (outerVars ≠ []) pre post (codeLines n outerVars pre post rows) :=
  codeRows_shaped (fun r hr pre post => codeRow_shaped hSend outerVars pre post (hFull r hr)) odd_leading hRows

/-! ## Instances of one row -/

theorem length_lines_pos {n : Nest} {rows : List n.Row} (hRows : rows ≠ []) (hFull : ∀ r ∈ rows, n.FullRow r) :
    0 < (n.lines rows).length := by
  obtain ⟨r, rows, rfl⟩ := List.exists_cons_of_ne_nil hRows
  rw [Nest.lines_cons, List.length_append]
  refine Nat.add_pos_left ?_ _
  have hRow := hFull r List.mem_cons_self
  clear hRows hFull
  induction n with
  | leaf fields => exact Nat.one_pos
  | parent before child after ih =>
    by_cases hChild : child.sendP = true
    · rw [Nest.rowLines_inner hChild, List.length_map]
      obtain ⟨hInner, hInners⟩ := hRow hChild
      obtain ⟨s, inner, hCons⟩ := List.exists_cons_of_ne_nil hInner
      rw [hCons, Nest.lines_cons, List.length_append]
      exact Nat.add_pos_left (ih s [] (hInners s (hCons ▸ List.mem_cons_self))) _
    · rw [Nest.rowLines_flat hChild]
      exact Nat.one_pos

/-- Where the join has one line, so has every instance. -/
theorem plain_of_one_line {n : Nest} {rows : List n.Row} (hRows : rows ≠ []) (hFull : ∀ r ∈ rows, n.FullRow r)
    (hOne : (n.lines rows).length ≤ 1) : n.Plain true rows := by
  have hLength {n : Nest} {rows : List n.Row} (hRows : rows ≠ []) (hFull : ∀ r ∈ rows, n.FullRow r)
      (hOne : (n.lines rows).length ≤ 1) : ∃ r, rows = [r] := by
    obtain ⟨r, rows, rfl⟩ := List.exists_cons_of_ne_nil hRows
    refine ⟨r, ?_⟩
    by_contra hMore
    have hRest : rows ≠ [] := fun hNil => hMore (by rw [hNil])
    have hFirst := length_lines_pos (List.cons_ne_nil r [])
      (fun s hs => by rw [List.mem_singleton.mp hs]; exact hFull r List.mem_cons_self)
    have hOther := length_lines_pos hRest (fun s hs => hFull s (List.mem_cons_of_mem r hs))
    rw [Nest.lines_singleton] at hFirst
    rw [Nest.lines_cons, List.length_append] at hOne
    omega
  obtain ⟨r, rfl⟩ := hLength hRows hFull hOne
  rw [Nest.lines_singleton] at hOne
  have hRow := hFull r List.mem_cons_self
  clear hRows hFull
  induction n with
  | leaf fields => exact ⟨List.cons_ne_nil _ _, fun _ => rfl⟩
  | parent before child after ih =>
    refine ⟨List.cons_ne_nil _ _, fun _ => rfl, fun s hs hChild => ?_⟩
    rw [List.mem_singleton.mp hs]
    obtain ⟨hInner, hInners⟩ := hRow hChild
    rw [Nest.rowLines_inner hChild, List.length_map] at hOne
    obtain ⟨t, hSingle⟩ := hLength hInner hInners hOne
    rw [hSingle] at hOne hInners ⊢
    rw [Nest.lines_singleton] at hOne
    exact ih t hOne (hInners t List.mem_cons_self)

/-- The one line of such a table, with what stands around it. -/
theorem codeLines_once {n : Nest} {rows : List n.Row} (h : n.Plain true rows) (outerVars : List Word)
    (pre post : List Token) :
    ∃ line, n.lines rows = [line] ∧ codeLines n outerVars pre post rows = [pre ++ lineTokens line ++ post] := by
  induction n generalizing outerVars pre post with
  | leaf fields =>
    obtain ⟨r, rfl⟩ := List.length_eq_one_iff.mp (h.2 rfl)
    exact ⟨_, rfl, rfl⟩
  | parent before child after ih =>
    obtain ⟨r, rfl⟩ := List.length_eq_one_iff.mp (h.2.1 rfl)
    have hInner := h.2.2 r List.mem_cons_self
    rw [Nest.lines_singleton, codeLines, codeRows_singleton]
    by_cases hChild : child.sendP = true
    · obtain ⟨line, hLine, hCode⟩ := ih (hInner hChild) (outerVars ++ Field.heldValues before r.1.1)
        (pre ++ led (Field.projected before r.1.1)) (trailed (Field.projected after r.2.2.1) ++ post)
      have hSome : line ≠ [] := Nest.line_ne_nil hChild
          (show line ∈ child.lines r.2.1 from hLine ▸ List.mem_singleton_self line)
      rw [Nest.rowLines_inner hChild, codeRow_inner _ _ _ hChild, hLine, hCode]
      have hAround := lineTokens_around (Field.projected before r.1.1) hSome (Field.projected after r.2.2.1)
      refine ⟨_, rfl, congrArg (fun t => [t]) (Eq.trans ?_ (congrArg (fun t => pre ++ t ++ post) hAround).symm)⟩
      simp only [List.append_assoc]
    · rw [Nest.rowLines_flat hChild, codeRow_flat _ _ _ hChild]
      exact ⟨_, rfl, rfl⟩

/-! ## Where the lines are the join -/

theorem heldValues_eq_nil_of {before : List Field} (vs : Field.Values before) (h : before.any Field.held = false) :
    Field.heldValues before vs.1 = [] ∧ Field.projected before vs.1 = [] :=
  ⟨(Field.heldValues_eq_nil vs).mpr h, (Field.projected_eq_nil vs).mpr (Field.sendP_of_held h)⟩

theorem codeLines_plain {n : Nest} {rows : List n.Row} (h : n.Plain false rows) :
    codeLines n [] [] [] rows = (n.lines rows).map lineTokens := by
  induction n with
  | leaf fields =>
    rw [codeLines, lineTokens_nil, codeRows_flatMap h.1, Nest.lines_eq, List.map_flatMap]
    refine List.flatMap_congr fun r _ => ?_
    rw [codeRow, Nest.rowLines, List.append_nil]
    rfl
  | parent before child after ih =>
    rw [codeLines, lineTokens_nil, codeRows_flatMap h.1, Nest.lines_eq, List.map_flatMap]
    refine List.flatMap_congr fun r hr => ?_
    by_cases hChild : child.sendP = true
    · have hInner := h.2.2 r hr hChild
      rw [Bool.false_or] at hInner
      rw [codeRow_inner _ _ _ hChild, Nest.rowLines_inner hChild]
      cases hOnce : before.any Field.held || after.any Field.sendP with
      | true =>
        rw [hOnce] at hInner
        obtain ⟨line, hLine, hCode⟩ := codeLines_once hInner ([] ++ Field.heldValues before r.1.1)
          ([] ++ led (Field.projected before r.1.1)) (trailed (Field.projected after r.2.2.1) ++ [])
        have hSome : line ≠ [] := Nest.line_ne_nil hChild
            (show line ∈ child.lines r.2.1 from hLine ▸ List.mem_singleton_self line)
        rw [hCode, hLine, List.nil_append, List.append_nil]
        exact congrArg (fun t => [t]) (lineTokens_around (Field.projected before r.1.1) hSome _).symm
      | false =>
        rw [hOnce] at hInner
        obtain ⟨hHeld, hSent⟩ := Bool.or_eq_false_iff.mp hOnce
        obtain ⟨hBefore, hBefore'⟩ := heldValues_eq_nil_of r.1 hHeld
        have hAfter := (Field.projected_eq_nil r.2.2).mpr hSent
        rw [hBefore, hBefore', hAfter]
        refine (ih hInner).trans ?_
        simp
    · rw [codeRow_flat _ _ _ hChild, Nest.rowLines_flat hChild, List.nil_append, List.append_nil, List.map_singleton]

theorem plain_of_join {n : Nest} {rows : List n.Row} (h : codeLines n [] [] [] rows = (n.lines rows).map lineTokens) :
    n.Plain false rows := by
  induction n with
  | leaf fields =>
    obtain ⟨hRows, -⟩ := codeLines_length _ _ _ _ _ (le_of_eq (by rw [h, List.length_map]))
    exact ⟨hRows, fun hOnce => absurd hOnce Bool.false_ne_true⟩
  | parent before child after ih =>
    obtain ⟨hRows, hFull⟩ := codeLines_length _ _ _ _ _ (le_of_eq (by rw [h, List.length_map]))
    refine ⟨hRows, fun hOnce => absurd hOnce Bool.false_ne_true, fun r hr hChild => ?_⟩
    have hRow := codeRows_split (fun pre post r => (codeRow_length _ [] pre post r).1)
      (by rwa [codeLines, lineTokens_nil, Nest.lines_eq] at h) hr
    obtain ⟨hInner, hInners⟩ := hFull r hr hChild
    rw [codeRow_inner _ _ _ hChild, Nest.rowLines_inner hChild, List.nil_append, List.nil_append, List.append_nil,
      List.map_map] at hRow
    rw [Bool.false_or]
    cases hOnce : before.any Field.held || after.any Field.sendP with
    | false =>
      obtain ⟨hHeld, hSent⟩ := Bool.or_eq_false_iff.mp hOnce
      obtain ⟨hBefore, hBefore'⟩ := heldValues_eq_nil_of r.1 hHeld
      have hAfter := (Field.projected_eq_nil r.2.2).mpr hSent
      rw [hBefore, hBefore', hAfter] at hRow
      refine ih (hRow.trans (List.map_congr_left fun line _ => ?_))
      exact congrArg lineTokens (List.append_nil line)
    | true =>
      refine plain_of_one_line hInner hInners ?_
      by_contra hMore
      obtain ⟨first, rest, hCode, hShort, hParity⟩ := codeLines_shaped hChild (Field.heldValues before r.1.1)
        (led (Field.projected before r.1.1)) (trailed (Field.projected after r.2.2.1)) hInner hInners
      rcases hLines : child.lines r.2.1 with _ | ⟨line, _ | ⟨line', lines⟩⟩
      · exact hMore (hLines ▸ Nat.zero_le 1)
      · exact hMore (hLines ▸ Nat.le_refl 1)
      · rw [hCode, hLines, List.map_cons, List.map_cons] at hRow
        obtain ⟨hFirst, hRest⟩ := List.cons.inj hRow
        have hLine := Nest.length_line (show line ∈ child.lines r.2.1 by rw [hLines]; simp)
        have hLine' := Nest.length_line (show line' ∈ child.lines r.2.1 by rw [hLines]; simp)
        have hSome : 0 < child.columns.length := List.length_pos_of_ne_nil (Nest.columns_ne_nil hChild)
        rcases Bool.or_eq_true_iff.mp hOnce with hHeld | hSent
        · -- The second line begins with fields of outer rows.
          have hLed : Field.heldValues before r.1.1 ≠ [] := fun hNil =>
            Bool.false_ne_true (((Field.heldValues_eq_nil r.1).mp hNil).symm.trans hHeld)
          obtain ⟨-, hEven⟩ := hParity hLed (by rw [length_trailed]; exact even_two_mul _)
          have hSecond := hEven _ (hRest ▸ List.mem_cons_self)
          rw [Function.comp_apply, length_lineTokens, List.length_append, List.length_append, Nat.even_iff] at hSecond
          omega
        · -- The first line ends before the fields behind the inner sequence.
          have hBehind : Field.projected after r.2.2.1 ≠ [] := fun hNil =>
            Bool.false_ne_true (((Field.projected_eq_nil r.2.2).mp hNil).symm.trans hSent)
          have hPos := List.length_pos_of_ne_nil hBehind
          rw [if_neg (by rw [hRest]; exact List.cons_ne_nil _ _), hFirst, Function.comp_apply, length_lineTokens,
            List.length_append, List.length_append, length_led] at hShort
          omega

/-! ## Where nothing is printed -/

theorem codeLines_silent {n : Nest} {rows : List n.Row} (h : n.Silent rows) :
    n.lines rows = [] ∧ ∀ outerVars pre post, codeLines n outerVars pre post rows = [pre ++ post] := by
  induction n with
  | leaf fields =>
    rw [h]
    exact ⟨rfl, fun _ _ _ => rfl⟩
  | parent before child after ih =>
    obtain rfl | ⟨r, rfl, hChild, hBefore, hAfter, hInner⟩ := h
    · exact ⟨rfl, fun _ _ _ => rfl⟩
    · obtain ⟨hLines, hCode⟩ := ih hInner
      refine ⟨?_, fun outerVars pre post => ?_⟩
      · rw [Nest.lines_singleton, Nest.rowLines_inner hChild, hLines, List.map_nil]
      · rw [codeLines, codeRows_singleton, codeRow_inner _ _ _ hChild, hCode,
          (Field.projected_eq_nil r.1).mpr hBefore, (Field.projected_eq_nil r.2.2).mpr hAfter]
        simp [led, trailed]

theorem silent_of_nothing {n : Nest} {rows : List n.Row} {outerVars : List Word} {pre post : List Token}
    (hLines : n.lines rows = []) (hCode : codeLines n outerVars pre post rows = [[]]) : n.Silent rows := by
  induction n generalizing outerVars pre post with
  | leaf fields => exact List.map_eq_nil_iff.mp hLines
  | parent before child after ih =>
    obtain _ | ⟨r, rows⟩ := rows
    · exact .inl rfl
    · obtain ⟨hRow, hRest⟩ := List.append_eq_nil_iff.mp ((Nest.lines_cons _ r rows).symm.trans hLines)
      have hLast : rows = [] := by
        by_contra hMore
        have hLength := congrArg List.length hCode
        have hHere := List.length_pos_of_ne_nil (codeRow_ne_nil _ outerVars pre [] r)
        have hThere := List.length_pos_of_ne_nil (codeRows_ne_nil
            (codeRow_ne_nil (.parent before child after) outerVars)
          (lineTokens outerVars) (lineTokens outerVars) post rows)
        rw [codeLines, codeRows_cons r hMore, List.length_append, List.length_singleton] at hLength
        omega
      subst hLast
      have hChild : child.sendP = true := by
        by_contra hChild
        rw [Nest.rowLines_flat hChild] at hRow
        exact List.cons_ne_nil _ _ hRow
      rw [Nest.rowLines_inner hChild, List.map_eq_nil_iff] at hRow
      rw [codeLines, codeRows_singleton, codeRow_inner _ _ _ hChild] at hCode
      have hInner := ih hRow hCode
      rw [(codeLines_silent hInner).2, List.cons.injEq, List.append_eq_nil_iff, List.append_eq_nil_iff,
        List.append_eq_nil_iff] at hCode
      obtain ⟨⟨⟨-, hLed⟩, hTrailed, -⟩, -⟩ := hCode
      have hBefore := congrArg List.length hLed
      have hAfter := congrArg List.length hTrailed
      rw [length_led, List.length_nil] at hBefore
      rw [length_trailed, List.length_nil] at hAfter
      exact .inr ⟨r, rfl, hChild, (Field.projected_eq_nil r.1).mp (List.length_eq_zero_iff.mp (by omega)),
        (Field.projected_eq_nil r.2.2).mp (List.length_eq_zero_iff.mp (by omega)), hInner⟩

/-! ## Lines and text -/

theorem lineTokens_free (ws : List Word) : Token.newline ∉ lineTokens ws := by
  cases ws with
  | nil => exact List.not_mem_nil
  | cons w ws => simp [lineTokens_cons, trailed]

theorem codeRows_free {R : Type} {row : List Token → List Token → R → List (List Token)} {leading pre post : List Token}
    {rows : List R} (hRow : ∀ r pre post, .newline ∉ pre → .newline ∉ post → ∀ line ∈ row pre post r, .newline ∉ line)
    (hLeading : .newline ∉ leading) (hPre : .newline ∉ pre) (hPost : .newline ∉ post) :
    ∀ line ∈ codeRows row leading pre post rows, .newline ∉ line := by
  induction rows generalizing pre with
  | nil =>
    intro line hLine
    rw [List.mem_singleton.mp hLine, List.mem_append]
    exact not_or_intro hPre hPost
  | cons r rows ih =>
    by_cases hLast : rows = []
    · subst hLast
      rw [codeRows_singleton]
      exact hRow r pre post hPre hPost
    · rw [codeRows_cons r hLast]
      intro line hLine
      rcases List.mem_append.mp hLine with hLine | hLine
      · exact hRow r pre [] hPre List.not_mem_nil line hLine
      · exact ih hLeading line hLine

theorem codeRow_free (n : Nest) (outerVars : List Word) (r : n.Row) (pre post : List Token) (hPre : .newline ∉ pre)
    (hPost : .newline ∉ post) : ∀ line ∈ codeRow n outerVars pre post r, .newline ∉ line := by
  have hFlat (ws : List Word) {pre post : List Token} (hPre : .newline ∉ pre) (hPost : .newline ∉ post) :
      ∀ line ∈ [pre ++ lineTokens ws ++ post], .newline ∉ line := by
    intro line hLine
    rw [List.mem_singleton.mp hLine, List.mem_append, List.mem_append]
    exact not_or_intro (not_or_intro hPre (lineTokens_free ws)) hPost
  induction n generalizing outerVars pre post with
  | leaf fields => exact hFlat _ hPre hPost
  | parent before child after ih =>
    by_cases hChild : child.sendP = true
    · rw [codeRow_inner _ _ _ hChild]
      refine codeRows_free (fun r pre post hPre hPost => ih _ r pre post hPre hPost) (lineTokens_free _) ?_ ?_
      · simp [hPre, led]
      · simp [hPost, trailed]
    · rw [codeRow_flat _ _ _ hChild]
      exact hFlat _ hPre hPost

theorem textOf_inj {xs ys : List (List Token)} (hx : xs ≠ []) (hy : ys ≠ []) (hxs : ∀ line ∈ xs, .newline ∉ line)
    (hys : ∀ line ∈ ys, .newline ∉ line) (h : textOf xs = textOf ys) : xs = ys := by
  have hSplit := congrArg (List.splitOn Token.newline) h
  rwa [textOf, textOf, List.splitOn_intercalate _ hxs hx, List.splitOn_intercalate _ hys hy] at hSplit

theorem AsciiSequence.printAscii_eq_iff (n : Nest) (rows : List n.Row) :
    printAscii n rows = tableTokens n.columns (n.lines rows) ↔
      textOf (codeLines n [] [] [] rows) = textOf ((n.lines rows).map lineTokens) := by
  rw [printAscii, printAsciiRows_eq, printHeader_eq, List.nil_append, tableTokens]
  exact List.append_right_inj _

/-- A table comes out as its flattened join exactly if no instance is empty and every instance that has fields of outer
rows before it, or projected ones behind it, has one row; or if there is nothing to print. -/
theorem AsciiSequence.join_printed_iff (n : Nest) (rows : List n.Row) : n.Right rows ↔ n.Plain false rows ∨
    n.Silent rows := by
  have hCodeFree : ∀ line ∈ codeLines n [] [] [] rows, .newline ∉ line :=
    codeRows_free (codeRow_free n []) (lineTokens_free []) List.not_mem_nil List.not_mem_nil
  have hCodeSome := codeRows_ne_nil (codeRow_ne_nil n []) (lineTokens []) [] [] rows
  constructor
  · rintro ⟨hText, -⟩
    rw [printAscii_eq_iff] at hText
    by_cases hLines : n.lines rows = []
    · rw [hLines] at hText
      exact .inr (silent_of_nothing hLines (textOf_inj hCodeSome (List.cons_ne_nil [] []) hCodeFree (by simp) hText))
    · refine .inl (plain_of_join (textOf_inj hCodeSome (by simpa using hLines) hCodeFree ?_ hText))
      intro line hLine
      obtain ⟨ws, -, rfl⟩ := List.mem_map.mp hLine
      exact lineTokens_free ws
  · intro hCases
    refine ⟨(printAscii_eq_iff n rows).mpr ?_, fun line hLine => Nest.length_line hLine⟩
    rcases hCases with hPlain | hSilent
    · rw [codeLines_plain hPlain]
    · obtain ⟨hLines, hCode⟩ := codeLines_silent hSilent
      rw [hLines, hCode]
      rfl

/-- A row with two inner rows: the second line has `1` and `3` with nothing between them. -/
theorem AsciiSequence.second_line_unseparated : ¬ (Nest.parent [⟨['o', '.', 'a'], true, true, fun h => h⟩]
      (.leaf [⟨['o', '.', 'i', '.', 'b'], true, true, fun h => h⟩]) []).Right
    [(⟨[['1']], rfl⟩, [⟨[['2']], rfl⟩, ⟨[['3']], rfl⟩], ⟨[], rfl⟩)] := by
  rintro ⟨h, -⟩
  exact absurd h (by decide)

end Libdap.Ascii
