import Libdap.Dap2.Array
import Libdap.Constraint.Word

/-! # Copies of variables

`ptr_duplicate` makes a new variable with new copies of all its parts. A Grid keeps its parts twice:
they belong to `d_array_var` and `d_map_vars`, and the child list `d_vars` points at them.
-/

namespace Libdap.Dap2
open Core Constraint
set_option autoImplicit false

/-- The fields of `BaseType` that `BaseType::m_duplicate` copies, without the pointer to the parent
and the attributes. -/
structure Base where
  name : Word
  type : Word
  dataset : Word
  isRead : Bool
  isSend : Bool
  inSelection : Bool
  isSynthesized : Bool
  deriving DecidableEq, Repr

/-- The fields of a Sequence besides its children and its rows. -/
structure RowState where
  rowNumber : Int
  startingRowNumber : Int
  endingRowNumber : Int
  rowStride : Int
  leafSequence : Bool
  unsentData : Bool
  wroteSoi : Bool
  topMost : Bool
  deriving DecidableEq, Repr

/-- What a pointer in the child list of a Grid points at. -/
inductive Part
  | arrayVar
  | map (i : Nat)
  | deleted
  deriving DecidableEq, Repr

/-- A variable with all that belongs to it. A map that is `none` is a pointer to a deleted one. -/
inductive Tree
  | scalar (base : Base)
  | array (base : Base) (length : Int) (shape : List Dimension) (element : Option Tree)
  | struct (base : Base) (vars : List Tree)
  | sequence (base : Base) (rowState : RowState) (vars : List Tree) (values : List (List Tree))
  | grid (base : Base) (arrayVar : Option Tree) (mapVars : List (Option Tree)) (vars : List Part)

/-- The child list that `Grid::m_duplicate` builds: the array and then the maps in their order, the
first of which is at place `i`. -/
def partsFrom (i n : Nat) : List Part := .arrayVar :: (List.range n).map fun j => .map (i + j)

mutual

/-- The copy constructors. Following a null pointer or one to a deleted variable is undefined. -/
def copy : Tree → Option Tree
  | .scalar base => some (.scalar base)
  | .array base length shape none => some (.array base length shape none)
  | .array base length shape (some element) =>
    (copy element).map fun element => .array base length shape (some element)
  | .struct base vars => (copyAll vars).map (.struct base)
  | .sequence base rowState vars values =>
    (copyAll vars).bind fun vars => (copyRows values).map (.sequence base rowState vars)
  | .grid _ none _ _ => none
  | .grid base (some arrayVar) mapVars _ =>
    (copy arrayVar).bind fun arrayVar =>
      (copyMaps mapVars).map fun mapVars =>
        .grid base (some arrayVar) mapVars (partsFrom 0 mapVars.length)

/-- The loop over the children in `Constructor::m_duplicate`. -/
def copyAll : List Tree → Option (List Tree)
  | [] => some []
  | v :: vs => (copy v).bind fun v => (copyAll vs).map (v :: ·)

def copyRows : List (List Tree) → Option (List (List Tree))
  | [] => some []
  | row :: rows => (copyAll row).bind fun row => (copyRows rows).map (row :: ·)

/-- The loop over the maps in `Grid::m_duplicate`. -/
def copyMaps : List (Option Tree) → Option (List (Option Tree))
  | [] => some []
  | none :: _ => none
  | some m :: ms => (copy m).bind fun m => (copyMaps ms).map (some m :: ·)

end

mutual

/-- The child list of each Grid in the variable is its array and its maps in their order. -/
def regular : Tree → Bool
  | .scalar _ => true
  | .array _ _ _ none => true
  | .array _ _ _ (some element) => regular element
  | .struct _ vars => regularAll vars
  | .sequence _ _ vars values => regularAll vars && regularRows values
  | .grid _ none _ _ => false
  | .grid _ (some arrayVar) mapVars vars =>
    regular arrayVar && regularMaps mapVars && vars = partsFrom 0 mapVars.length

def regularAll : List Tree → Bool
  | [] => true
  | v :: vs => regular v && regularAll vs

def regularRows : List (List Tree) → Bool
  | [] => true
  | row :: rows => regularAll row && regularRows rows

def regularMaps : List (Option Tree) → Bool
  | [] => true
  | none :: _ => false
  | some m :: ms => regular m && regularMaps ms

end

theorem bind_map_eq_some {α β γ : Type} {f : α → β → γ} {o : Option α} {p : Option β} {a : α} {b : β}
    (hf : ∀ a' b', f a' b' = f a b → a' = a ∧ b' = b) :
    (o.bind fun a => p.map (f a)) = some (f a b) ↔ o = some a ∧ p = some b := by
  constructor
  · intro h
    obtain ⟨a', hFirst, hRest⟩ := Option.bind_eq_some_iff.mp h
    obtain ⟨b', hSecond, hEq⟩ := Option.map_eq_some_iff.mp hRest
    obtain ⟨rfl, rfl⟩ := hf a' b' hEq
    exact ⟨hFirst, hSecond⟩
  · rintro ⟨rfl, rfl⟩
    rfl

mutual

theorem copy_eq_self (t : Tree) : copy t = some t ↔ regular t = true := by
  cases t with
  | scalar base => simp [copy, regular]
  | array base length shape element =>
    cases element with
    | none => simp [copy, regular]
    | some element => simp [copy, regular, copy_eq_self element]
  | struct base vars => simp [copy, regular, copyAll_eq_self vars]
  | sequence base rowState vars values =>
    rw [regular, Bool.and_eq_true, ← copyAll_eq_self vars, ← copyRows_eq_self values, copy]
    apply bind_map_eq_some
    simp
  | grid base arrayVar mapVars vars =>
    cases arrayVar with
    | none => simp [copy, regular]
    | some arrayVar =>
      rw [regular, Bool.and_eq_true, Bool.and_eq_true, decide_eq_true_eq, ← copy_eq_self arrayVar,
        ← copyMaps_eq_self mapVars, copy]
      constructor
      · intro h
        obtain ⟨arrayVar', hArray, hRest⟩ := Option.bind_eq_some_iff.mp h
        obtain ⟨mapVars', hMaps, hEq⟩ := Option.map_eq_some_iff.mp hRest
        cases hEq
        exact ⟨⟨hArray, hMaps⟩, rfl⟩
      · rintro ⟨⟨hArray, hMaps⟩, hParts⟩
        rw [hArray, hMaps, hParts]
        rfl

theorem copyAll_eq_self (vars : List Tree) : copyAll vars = some vars ↔ regularAll vars = true := by
  cases vars with
  | nil => simp [copyAll, regularAll]
  | cons v vs =>
    rw [regularAll, Bool.and_eq_true, ← copy_eq_self v, ← copyAll_eq_self vs, copyAll]
    apply bind_map_eq_some
    simp

theorem copyRows_eq_self (rows : List (List Tree)) :
    copyRows rows = some rows ↔ regularRows rows = true := by
  cases rows with
  | nil => simp [copyRows, regularRows]
  | cons row rows =>
    rw [regularRows, Bool.and_eq_true, ← copyAll_eq_self row, ← copyRows_eq_self rows, copyRows]
    apply bind_map_eq_some
    simp

theorem copyMaps_eq_self (ms : List (Option Tree)) :
    copyMaps ms = some ms ↔ regularMaps ms = true := by
  cases ms with
  | nil => simp [copyMaps, regularMaps]
  | cons m ms =>
    cases m with
    | none => simp [copyMaps, regularMaps]
    | some m =>
      rw [regularMaps, Bool.and_eq_true, ← copy_eq_self m, ← copyMaps_eq_self ms, copyMaps]
      apply bind_map_eq_some (f := fun m ms => some m :: ms)
      simp

end

theorem length_of_bind_map {α β : Type} {o : Option α} {p : Option (List β)} {f : α → β} {n : Nat}
    {us : List β} (h : (o.bind fun v => p.map (f v :: ·)) = some us)
    (hRest : ∀ vs, p = some vs → vs.length = n) : us.length = n + 1 := by
  obtain ⟨v, _, h⟩ := Option.bind_eq_some_iff.mp h
  obtain ⟨vs, hTail, rfl⟩ := Option.map_eq_some_iff.mp h
  rw [List.length_cons, hRest vs hTail]

theorem length_copyAll {vars us : List Tree} (h : copyAll vars = some us) : us.length = vars.length := by
  induction vars generalizing us with
  | nil =>
    cases h
    rfl
  | cons v vs ih => exact length_of_bind_map h fun _ hTail => ih hTail

theorem length_copyRows {rows us : List (List Tree)} (h : copyRows rows = some us) :
    us.length = rows.length := by
  induction rows generalizing us with
  | nil =>
    cases h
    rfl
  | cons row rows ih => exact length_of_bind_map h fun _ hTail => ih hTail

theorem length_copyMaps {ms us : List (Option Tree)} (h : copyMaps ms = some us) :
    us.length = ms.length := by
  induction ms generalizing us with
  | nil =>
    cases h
    rfl
  | cons m ms ih =>
    cases m with
    | none => cases h
    | some m => exact length_of_bind_map (f := some) h fun _ hTail => ih hTail

theorem regular_of_regularMaps {ms : List (Option Tree)} (h : regularMaps ms = true) {i : Nat}
    (hi : i < ms.length) : ∃ m, ms[i]? = some (some m) ∧ regular m = true := by
  induction ms generalizing i with
  | nil => cases hi
  | cons m ms ih =>
    cases m with
    | none => cases h
    | some m =>
      rw [regularMaps, Bool.and_eq_true] at h
      cases i with
      | zero => exact ⟨m, rfl, h.1⟩
      | succ i => exact ih h.2 (Nat.lt_of_succ_lt_succ hi)

end Libdap.Dap2
