import Mathlib.Data.List.Basic
import Libdap.Dap2.Variable

/-! # The Grids of a dataset

`getGrids` collects pointers to the Grids of a dataset; a pointer is the address of the variable. The loop over the
fields of a Structure runs from their begin to their begin.
-/

namespace Libdap.Functions
open Constraint Dap2
set_option autoImplicit false

mutual

def getGrids : Variable → Addr → List Addr → List Addr
  | .grid _ _ _, here, grids => grids ++ [here]
  -- `i != s.var_begin()`
  | .fields .structureType _ vars, here, grids => getGridsLoop vars here 0 0 grids
  | .fields .sequenceType _ _, _, grids => grids
  | .array _ _, _, grids => grids
  | .simple _, _, grids => grids

/-- The loop over the variables from place `i` on, which ends at place `stop`. -/
def getGridsLoop : List Variable → Addr → Nat → Nat → List Addr → List Addr
  | [], _, _, _, grids => grids
  | v :: vs, here, i, stop, grids =>
    if i = stop then grids else getGridsLoop vs here (i + 1) stop (getGrids v (here ++ [i]) grids)

end

/-- `getGrids` of a `DDS` -/
def getGridsDDS (vars : List Variable) (grids : List Addr) : List Addr := getGridsLoop vars [] 0 vars.length grids

/-- A Grid at top level, or nested in Structures. -/
inductive GridAt : List Variable → Addr → Prop
  | top {vars : List Variable} {i : Nat} {name : Word} {arrayVar : Variable} {mapVars : List Variable}
    (h : vars[i]? = some (.grid name arrayVar mapVars)) : GridAt vars [i]
  | nested {vars parts : List Variable} {i : Nat} {name : Word} {a : Addr}
    (h : vars[i]? = some (.fields .structureType name parts)) (hIn : GridAt parts a) : GridAt vars (i :: a)

/-- Those that belong there are added, each once and in the order of their declarations. -/
def GridsAdded (vars : List Variable) (grids result : List Addr) : Prop :=
  ∃ found, result = grids ++ found ∧ found.Pairwise (· < ·) ∧ ∀ a, a ∈ found ↔ GridAt vars a

def isGrid : Variable → Bool
  | .grid _ _ _ => true
  | _ => false

theorem getGrids_eq (v : Variable) (here : Addr) (grids : List Addr) :
    getGrids v here grids = if isGrid v then grids ++ [here] else grids := by
  cases v with
  | simple name => rfl
  | array name element => rfl
  | fields kind name vars =>
    cases kind with
    | sequenceType => rfl
    | structureType =>
      rw [getGrids]
      cases vars with
      | nil => rfl
      | cons v vs => rfl
  | grid name arrayVar mapVars => rfl

theorem getGridsLoop_eq (vs : List Variable) (here : Addr) (i : Nat) (grids : List Addr) :
    getGridsLoop vs here i (i + vs.length) grids =
      grids ++ ((vs.zipIdx i).filter fun p => isGrid p.1).map fun p => here ++ [p.2] := by
  induction vs generalizing i grids with
  | nil => exact (List.append_nil grids).symm
  | cons v vs ih =>
    have hNot : i ≠ i + (v :: vs).length := by
      rw [List.length_cons]
      omega
    have hStop : i + (v :: vs).length = i + 1 + vs.length := by
      rw [List.length_cons]
      omega
    rw [getGridsLoop, if_neg hNot, hStop, ih, getGrids_eq, List.zipIdx_cons, List.filter_cons]
    cases isGrid v with
    | true => simp
    | false => simp

theorem mem_places {vars : List Variable} {a : Addr} :
    a ∈ (vars.zipIdx.filter fun p => isGrid p.1).map (fun p => [p.2]) ↔ a.length = 1 ∧ GridAt vars a := by
  rw [List.mem_map]
  constructor
  · rintro ⟨⟨v, i⟩, hMem, rfl⟩
    obtain ⟨hPlace, hGrid⟩ := List.mem_filter.mp hMem
    rw [List.mem_zipIdx_iff_getElem?] at hPlace
    cases v with
    | grid name arrayVar mapVars => exact ⟨rfl, .top hPlace⟩
    | simple name => cases hGrid
    | array name element => cases hGrid
    | fields kind name parts => cases hGrid
  · rintro ⟨hLength, hAt⟩
    cases hAt with
    | @top _ i name arrayVar mapVars h =>
      exact ⟨(.grid name arrayVar mapVars, i), List.mem_filter.mpr ⟨List.mem_zipIdx_iff_getElem?.mpr h, rfl⟩, rfl⟩
    | nested h hIn =>
      cases hIn with
      | top h' => cases hLength
      | nested h' hIn' => cases hLength

theorem places_ordered (vars : List Variable) :
    ((vars.zipIdx.filter fun p => isGrid p.1).map fun p => [p.2]).Pairwise (· < ·) := by
  rw [List.pairwise_map]
  apply List.Pairwise.filter
  have hPlaces : (vars.zipIdx.map Prod.snd).Pairwise (· < ·) := by
    rw [List.zipIdx_map_snd]
    exact List.pairwise_lt_range'
  rw [List.pairwise_map] at hPlaces
  exact hPlaces.imp fun h => List.cons_lt_cons_iff.mpr (.inl h)

/-- Unless there is a Grid in a Structure. -/
theorem grids_added_iff (vars : List Variable) (grids : List Addr) :
    GridsAdded vars grids (getGridsDDS vars grids) ↔ ∀ a, GridAt vars a → a.length = 1 := by
  have hRun : getGridsDDS vars grids =
      grids ++ (vars.zipIdx.filter fun p => isGrid p.1).map fun p => [p.2] := by
    have hLoop := getGridsLoop_eq vars [] 0 grids
    rw [Nat.zero_add] at hLoop
    exact hLoop
  rw [hRun]
  constructor
  · rintro ⟨found, hFound, -, hMem⟩ a hAt
    obtain rfl := List.append_cancel_left hFound
    exact (mem_places.mp ((hMem a).mpr hAt)).1
  · intro hTop
    refine ⟨_, rfl, places_ordered vars, fun a => ?_⟩
    rw [mem_places]
    exact and_iff_right_of_imp (hTop a)

/-- A Structure with one Grid. -/
def nestedGrid : List Variable :=
  [.fields .structureType "s".toList [.grid "g".toList (.array "a".toList (.simple "a".toList)) []]]

theorem nested_grid_missed : getGridsDDS nestedGrid [] = [] ∧ GridAt nestedGrid [0, 0] ∧
    ¬ GridsAdded nestedGrid [] (getGridsDDS nestedGrid []) := by
  have hAt : GridAt nestedGrid [0, 0] := .nested rfl (.top rfl)
  refine ⟨by decide, hAt, ?_⟩
  rintro ⟨found, hFound, -, hMem⟩
  have hIn := (hMem [0, 0]).mpr hAt
  rw [List.nil_append] at hFound
  rw [← hFound] at hIn
  exact absurd hIn (by decide)

end Libdap.Functions
