import Libdap.Dap2.Copy
import Libdap.Core.Call

/-! # Assignment between variables of one constructor class

`operator=` of a class runs the one of its base class and then its own `m_duplicate`; each of them
adds copies of the children of the right-hand side.
-/

namespace Libdap.Dap2
open Core
set_option autoImplicit false

/-- The two sides of an assignment. -/
structure Sides where
  x : Tree
  y : Tree

/-- `Constructor::m_duplicate` on the child list. -/
def constructorDuplicate (vars vars' : List Tree) : Option (List Tree) :=
  (copyAll vars').map (vars ++ ·)

/-- The copies that `Constructor::m_duplicate` makes along the child list of a Grid. -/
def copyParts (arrayVar : Option Tree) (mapVars : List (Option Tree)) : List Part → Option (List Tree)
  | [] => some []
  | .arrayVar :: parts =>
    (arrayVar.bind copy).bind fun v => (copyParts arrayVar mapVars parts).map (v :: ·)
  | .map i :: parts =>
    ((mapVars[i]?.join).bind copy).bind fun v => (copyParts arrayVar mapVars parts).map (v :: ·)
  | .deleted :: _ => none

/-- `Structure::operator=` -/
def assignStructure (vars : List Tree) (base : Base) (vars' : List Tree) : Option Tree := do
  let vars ← constructorDuplicate vars vars'
  let vars ← constructorDuplicate vars vars'
  some (.struct base vars)

/-- `Sequence::operator=`; its `m_duplicate` calls `add_var` for each child. -/
def assignSequence (vars : List Tree) (values : List (List Tree)) (base : Base) (rowState : RowState)
    (vars' : List Tree) (values' : List (List Tree)) : Option Tree := do
  let vars ← constructorDuplicate vars vars'
  let vars ← constructorDuplicate vars vars'
  let rows ← copyRows values'
  some (.sequence base rowState vars (values ++ rows))

/-- The maps are deleted and stay in `d_map_vars`; to delete one again is undefined. -/
def deleteMaps (mapVars : List (Option Tree)) : Option (List (Option Tree)) :=
  if mapVars.all Option.isSome then some (mapVars.map fun _ => none) else none

/-- `Grid::operator=`. `Grid::m_duplicate` clears the child list first. -/
def assignGrid (mapVars : List (Option Tree)) (base : Base) (arrayVar' : Option Tree)
    (mapVars' : List (Option Tree)) (vars' : List Part) : Option Tree := do
  let old ← deleteMaps mapVars
  let _ ← copyParts arrayVar' mapVars' vars'
  let arrayVar ← arrayVar'.bind copy
  let maps ← copyMaps mapVars'
  some (.grid base (some arrayVar) (old ++ maps) (partsFrom old.length maps.length))

/-- `x = y` for two variables of one constructor class. -/
def assignTree : Tree → Tree → Option Tree
  | .struct _ vars, .struct base vars' => assignStructure vars base vars'
  | .sequence _ _ vars values, .sequence base rowState vars' values' =>
    assignSequence vars values base rowState vars' values'
  | .grid _ _ mapVars _, .grid base arrayVar' mapVars' vars' =>
    assignGrid mapVars base arrayVar' mapVars' vars'
  | _, _ => none

/-- `operator=`, which returns at once when both sides are the same object. -/
def assign (same : Bool) : Call Sides Unit := fun s =>
  if same then .ok () s
  else match assignTree s.x s.y with
    | none => .error .undefined s
    | some x => .ok () { s with x := x }

/-- The left side is a copy of the right one, and that is as it was. -/
def Assigned (same : Bool) (s : Sides) : Prop :=
  ∃ s', assign same s = .ok () s' ∧ s'.x = s.y ∧ s'.y = s.y

/-- No child is added twice, and nothing old stays. -/
def Clean : Tree → Tree → Prop
  | .struct _ vars, .struct _ vars' => vars = [] ∧ vars' = []
  | .sequence _ _ vars values, .sequence _ _ vars' values' =>
    vars = [] ∧ values = [] ∧ vars' = [] ∧ regularRows values' = true
  | .grid _ _ mapVars _, .grid base arrayVar' mapVars' vars' =>
    mapVars = [] ∧ regular (.grid base arrayVar' mapVars' vars') = true
  | _, _ => False

theorem constructorDuplicate_twice {vars vars' vars₁ vars₂ : List Tree}
    (hFirst : constructorDuplicate vars vars' = some vars₁)
    (hSecond : constructorDuplicate vars₁ vars' = some vars₂) :
    vars₂.length = vars.length + 2 * vars'.length := by
  obtain ⟨copies, hCopies, rfl⟩ := Option.map_eq_some_iff.mp hFirst
  obtain ⟨copies', hCopies', rfl⟩ := Option.map_eq_some_iff.mp hSecond
  rw [List.length_append, List.length_append, length_copyAll hCopies, length_copyAll hCopies']
  omega

theorem assignStructure_iff {vars vars' : List Tree} {base : Base} :
    assignStructure vars base vars' = some (.struct base vars') ↔ vars = [] ∧ vars' = [] := by
  constructor
  · intro h
    obtain ⟨vars₁, hFirst, h⟩ := Option.bind_eq_some_iff.mp h
    obtain ⟨vars₂, hSecond, h⟩ := Option.bind_eq_some_iff.mp h
    have hLength := constructorDuplicate_twice hFirst hSecond
    cases h
    exact ⟨List.length_eq_zero_iff.mp (by omega), List.length_eq_zero_iff.mp (by omega)⟩
  · rintro ⟨rfl, rfl⟩
    rfl

theorem assignSequence_iff {vars vars' : List Tree} {values values' : List (List Tree)} {base : Base}
    {rowState : RowState} :
    assignSequence vars values base rowState vars' values' =
        some (.sequence base rowState vars' values') ↔
      vars = [] ∧ values = [] ∧ vars' = [] ∧ regularRows values' = true := by
  constructor
  · intro h
    obtain ⟨vars₁, hFirst, h⟩ := Option.bind_eq_some_iff.mp h
    obtain ⟨vars₂, hSecond, h⟩ := Option.bind_eq_some_iff.mp h
    obtain ⟨rows, hRows, h⟩ := Option.bind_eq_some_iff.mp h
    have hLength := constructorDuplicate_twice hFirst hSecond
    have hCount := length_copyRows hRows
    simp only [Option.some.injEq, Tree.sequence.injEq, true_and] at h
    obtain ⟨rfl, hValues⟩ := h
    have hOld : values = [] := by
      have hBoth := congrArg List.length hValues
      rw [List.length_append] at hBoth
      exact List.length_eq_zero_iff.mp (by omega)
    rw [hOld, List.nil_append] at hValues
    rw [hValues] at hRows
    exact ⟨List.length_eq_zero_iff.mp (by omega), hOld, List.length_eq_zero_iff.mp (by omega),
      (copyRows_eq_self values').mp hRows⟩
  · rintro ⟨rfl, rfl, rfl, hRegular⟩
    rw [← copyRows_eq_self] at hRegular
    rw [assignSequence, hRegular]
    rfl

/-- Every pointer in the child list can be followed, and what it points at can be copied. -/
theorem copyParts_of_copyable {arrayVar : Option Tree} {mapVars : List (Option Tree)}
    (hArray : ∃ v, arrayVar.bind copy = some v)
    (hMaps : ∀ i, i < mapVars.length → ∃ v, (mapVars[i]?.join).bind copy = some v)
    {parts : List Part} (h : ∀ part ∈ parts, part = .arrayVar ∨ ∃ i, part = .map i ∧ i < mapVars.length) :
    ∃ copies, copyParts arrayVar mapVars parts = some copies := by
  induction parts with
  | nil => exact ⟨[], rfl⟩
  | cons part parts ih =>
    obtain ⟨copies, hRest⟩ := ih fun p hp => h p (List.mem_cons_of_mem part hp)
    rcases h part List.mem_cons_self with rfl | ⟨i, rfl, hi⟩
    · obtain ⟨v, hCopy⟩ := hArray
      exact ⟨v :: copies, by rw [copyParts, hCopy, hRest]; rfl⟩
    · obtain ⟨v, hCopy⟩ := hMaps i hi
      exact ⟨v :: copies, by rw [copyParts, hCopy, hRest]; rfl⟩

theorem assignGrid_iff {mapVars mapVars' : List (Option Tree)} {base : Base} {arrayVar' : Option Tree}
    {vars' : List Part} :
    assignGrid mapVars base arrayVar' mapVars' vars' = some (.grid base arrayVar' mapVars' vars') ↔
      mapVars = [] ∧ regular (.grid base arrayVar' mapVars' vars') = true := by
  constructor
  · intro h
    obtain ⟨old, hOld, h⟩ := Option.bind_eq_some_iff.mp h
    obtain ⟨copies, _, h⟩ := Option.bind_eq_some_iff.mp h
    obtain ⟨arrayVar, hArray, h⟩ := Option.bind_eq_some_iff.mp h
    obtain ⟨maps, hMaps, h⟩ := Option.bind_eq_some_iff.mp h
    have hCount := length_copyMaps hMaps
    simp only [Option.some.injEq, Tree.grid.injEq, true_and] at h
    obtain ⟨rfl, hAll, rfl⟩ := h
    rw [deleteMaps] at hOld
    split at hOld
    · cases hOld
      have hNone : mapVars = [] := by
        have hBoth := congrArg List.length hAll
        rw [List.length_append, List.length_map] at hBoth
        exact List.length_eq_zero_iff.mp (by omega)
      subst hNone
      rw [List.map_nil, List.nil_append] at hAll
      subst hAll
      refine ⟨rfl, ?_⟩
      rw [regular, (copy_eq_self arrayVar).mp hArray, (copyMaps_eq_self maps).mp hMaps]
      simp
    · cases hOld
  · rintro ⟨rfl, hRegular⟩
    cases arrayVar' with
    | none => cases hRegular
    | some arrayVar =>
      rw [regular, Bool.and_eq_true, Bool.and_eq_true, decide_eq_true_eq] at hRegular
      obtain ⟨⟨hArray, hMaps⟩, hParts⟩ := hRegular
      have hArrayCopy : (some arrayVar).bind copy = some arrayVar := (copy_eq_self arrayVar).mpr hArray
      obtain ⟨copies, hCopies⟩ : ∃ copies, copyParts (some arrayVar) mapVars' vars' = some copies := by
        apply copyParts_of_copyable ⟨arrayVar, hArrayCopy⟩
        · intro i hi
          obtain ⟨m, hAt, hMap⟩ := regular_of_regularMaps hMaps hi
          exact ⟨m, by rw [hAt]; exact (copy_eq_self m).mpr hMap⟩
        · intro part hPart
          rw [hParts, partsFrom, List.mem_cons, List.mem_map] at hPart
          rcases hPart with hFirst | ⟨i, hi, rfl⟩
          · exact .inl hFirst
          · exact .inr ⟨0 + i, rfl, by rw [Nat.zero_add]; exact List.mem_range.mp hi⟩
      rw [assignGrid, hCopies, hArrayCopy, (copyMaps_eq_self mapVars').mpr hMaps, hParts]
      rfl

/-- Both sides are a Structure, both a Sequence or both a Grid. -/
inductive SameClass : Tree → Tree → Prop
  | structures (base base' : Base) (vars vars' : List Tree) :
    SameClass (.struct base vars) (.struct base' vars')
  | sequences (base base' : Base) (rowState rowState' : RowState) (vars vars' : List Tree)
    (values values' : List (List Tree)) :
    SameClass (.sequence base rowState vars values) (.sequence base' rowState' vars' values')
  | grids (base base' : Base) (arrayVar arrayVar' : Option Tree) (mapVars mapVars' : List (Option Tree))
    (vars vars' : List Part) :
    SameClass (.grid base arrayVar mapVars vars) (.grid base' arrayVar' mapVars' vars')

theorem assignTree_iff {x y : Tree} (hClass : SameClass x y) : assignTree x y = some y ↔ Clean x y := by
  cases hClass with
  | structures base base' vars vars' => exact assignStructure_iff
  | sequences base base' rowState rowState' vars vars' values values' => exact assignSequence_iff
  | grids base base' arrayVar arrayVar' mapVars mapVars' vars vars' => exact assignGrid_iff

/-- After an assignment the left side equals the right one, and that is unchanged, if and only if
they are the same object or no child is added twice and nothing old stays. -/
theorem assigned_iff {same : Bool} {s : Sides} (hSame : same = true → s.x = s.y)
    (hClass : SameClass s.x s.y) : Assigned same s ↔ same = true ∨ Clean s.x s.y := by
  rw [← assignTree_iff hClass, Assigned, assign]
  constructor
  · rintro ⟨s', hAssign, hLeft, _⟩
    split at hAssign
    · rename_i hObject
      exact .inl hObject
    · cases hTree : assignTree s.x s.y with
      | none =>
        rw [hTree] at hAssign
        cases hAssign
      | some x =>
        rw [hTree] at hAssign
        cases hAssign
        exact .inr (congrArg some hLeft)
  · rintro (hObject | hTree)
    · rw [if_pos hObject]
      exact ⟨s, rfl, hSame hObject, rfl⟩
    · split
      · rename_i hObject
        exact ⟨s, rfl, hSame hObject, rfl⟩
      · rw [hTree]
        exact ⟨_, rfl, rfl, rfl⟩

/-- A variable's own fields, with this name and class, as its constructor leaves them. -/
def newBase (name type : String) : Base := ⟨name.toList, type.toList, [], false, false, false, false⟩

/-- An empty Grid gets the parts of a Grid with one map. -/
theorem grid_assigned :
    Assigned false ⟨.grid (newBase "g" "Grid") none [] [],
      .grid (newBase "h" "Grid")
        (some (.array (newBase "a" "Array") 4 [] (some (.scalar (newBase "a" "Int32")))))
        [some (.array (newBase "m" "Array") 4 [] (some (.scalar (newBase "m" "Int32"))))]
        [.arrayVar, .map 0]⟩ := by
  apply (assigned_iff (fun h => absurd h (by decide)) (.grids ..)).mpr
  right
  exact ⟨rfl, rfl⟩

/-- A Structure with one field, assigned to an empty one, is there with the field twice. -/
theorem structure_field_twice :
    ¬ ∀ (same : Bool) (s : Sides), (same = true → s.x = s.y) → SameClass s.x s.y → Assigned same s := by
  intro h
  obtain ⟨s', hAssign, hLeft, _⟩ :=
    h false ⟨.struct (newBase "s" "Structure") [],
        .struct (newBase "s" "Structure") [.scalar (newBase "a" "Int32")]⟩
      (fun h => absurd h (by decide)) (.structures ..)
  cases hAssign
  cases hLeft

end Libdap.Dap2
