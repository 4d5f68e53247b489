import Libdap.Functions.GSEClause

/-! # Grids under selection expressions

The clauses of `grid()` are applied one after the other: each of them constrains its map, and the dimension of the array
at the same place, to what its range has in common with the constraint that is there.
-/

namespace Libdap.Functions
open Core
open Dap2 (Dimension)
set_option autoImplicit false

structure MapGrid (T : Type) where
  name : String
  array : Dap2.Array
  maps : List (GridMap T)
  readP : Bool

section
variable {T V : Type}

def notInGrid (grid : MapGrid T) (clause : GSEClause V) : Fault :=
  .Error ("The map vector '" ++ clause.mapName ++ "' is not in the grid '" ++ grid.name ++ "'.")

def noSubset (clause : GSEClause V) : Fault :=
  .Error ("The expressions passed to grid() do not result in an inclusive \nsubset of '" ++ clause.mapName ++
    "'. The map's values range from " ++ clause.mapMinValue ++ " to " ++ clause.mapMaxValue ++ ".")

def applyGridSelectionExpr (clause : GSEClause V) : Call (MapGrid T) Unit := do
  let grid ← get
  let i := grid.maps.findIdx (·.name = clause.mapName)
  match grid.maps[i]? with
  | none => throw (notInGrid grid clause)
  | some map =>
    let start := max map.dim.start clause.start
    let stop := min map.dim.stop clause.stop
    if start > stop then throw (noSubset clause)
    else do
      let dim ← Call.ofExcept (map.dim.addConstraint start 1 stop)
      modify fun grid => { grid with maps := grid.maps.set i { map with dim := dim } }
      Call.on MapGrid.array (fun grid array => { grid with array := array }) (Dap2.Array.addConstraint i start 1 stop)

def applyClauses : List (GSEClause V) → Call (MapGrid T) Unit
  | [] => pure ()
  | clause :: clauses => do
    applyGridSelectionExpr clause
    applyClauses clauses

def applyGridSelectionExpressions (clauses : List (GSEClause V)) : Call (MapGrid T) Unit := do
  applyClauses clauses
  modify fun grid => { grid with readP := false }

/-! ## What the clauses should leave -/

/-- Each map goes with the dimension of the array at its place. -/
structure Matching (grid : MapGrid T) : Prop where
  names : (grid.maps.map GridMap.name).Nodup
  current : ∀ m ∈ grid.maps, Current m
  dims : ∀ (k : Nat) (m : GridMap T), grid.maps[k]? = some m → ∃ d, grid.array.shape[k]? = some d ∧ d.size = m.dim.size

/-- The index is in the range of the map, and in the range of each clause on it. -/
def InAll (clauses : List (GSEClause V)) (m : GridMap T) (i : Int) : Prop :=
  InRange m i ∧ ∀ c ∈ clauses, c.mapName = m.name → c.start ≤ i ∧ i ≤ c.stop

def Named (clauses : List (GSEClause V)) (m : GridMap T) : Prop := ∃ c ∈ clauses, c.mapName = m.name

structure SameConstraint (d d' : Dimension) : Prop where
  start : d.start = d'.start
  stop : d.stop = d'.stop
  stride : d.stride = d'.stride
  cSize : d.cSize = d'.cSize

/-- Every map has the intersection of the ranges, and so has the dimension of the array if there is a clause on the map, or
if it had the constraint of the map before. -/
def Intersected (clauses : List (GSEClause V)) (grid grid' : MapGrid T) : Prop :=
  ∀ (k : Nat) (m : GridMap T) (d : Dimension), grid.maps[k]? = some m → grid.array.shape[k]? = some d →
    ∃ m' d', grid'.maps[k]? = some m' ∧ grid'.array.shape[k]? = some d' ∧ m'.name = m.name ∧
      (∀ i, InRange m' i ↔ InAll clauses m i) ∧ (Named clauses m ∨ SameConstraint d m.dim → SameConstraint d' m'.dim)

/-! ## One clause -/

/-- The dimension under the constraint that a clause leaves. -/
def inside (d : Dimension) (start stop : Int) : Dimension :=
  { d with start := start, stop := stop, stride := 1, cSize := stop - start + 1 }

theorem addConstraint_inside {d : Dimension} {start stop : Int} (hSize : d.size ≤ INT_MAX) (hLow : 0 ≤ start)
    (hLe : start ≤ stop) (hHigh : stop < d.size) :
    d.addConstraint start 1 stop = .ok (inside d start stop) := by
  have hInt : INT_MAX = 2147483647 := rfl
  have hStop : d.stopOf stop = stop := if_neg (by omega)
  have hCount : Dimension.countOf start 1 stop = stop - start + 1 := by
    rw [Dimension.countOf, Int.tdiv_one, int32_of_bounds (n := stop - start) (by omega) (by omega),
      int32_of_bounds (by omega) (by omega)]
  rw [Dimension.addConstraint_ok, hStop, hCount]
  refine ⟨by omega, hHigh, by omega, by decide, by omega, ?_⟩
  rw [Dimension.constrained, hStop, hCount]
  rfl

variable {grid grid' grid'' : MapGrid T} {clause : GSEClause V} {clauses : List (GSEClause V)}

theorem same_place (h : (grid.maps.map GridMap.name).Nodup) {k l : Nat} {m m' : GridMap T} (hk : grid.maps[k]? = some m)
    (hl : grid.maps[l]? = some m') (hName : m.name = m'.name) : k = l := by
  have hk' : (grid.maps.map GridMap.name)[k]? = some m.name := by rw [List.getElem?_map, hk, Option.map_some]
  have hl' : (grid.maps.map GridMap.name)[l]? = some m.name := by rw [List.getElem?_map, hl, Option.map_some, hName]
  obtain ⟨hLess, -⟩ := List.getElem?_eq_some_iff.mp hk'
  exact (List.getElem?_inj hLess h).mp (hk'.trans hl'.symm)

theorem found_map (hNamed : ∃ m ∈ grid.maps, m.name = clause.mapName) :
    ∃ m, grid.maps[grid.maps.findIdx (·.name = clause.mapName)]? = some m ∧ m.name = clause.mapName := by
  obtain ⟨m, hm, hName⟩ := hNamed
  have hLess : grid.maps.findIdx (·.name = clause.mapName) < grid.maps.length :=
    List.findIdx_lt_length_of_exists ⟨m, hm, decide_eq_true hName⟩
  exact ⟨_, List.getElem?_eq_getElem hLess, of_decide_eq_true (List.findIdx_getElem (w := hLess))⟩

theorem inside_current {m : GridMap T} (h : Current m) {start stop : Int} (hLow : 0 ≤ start) (hLe : start ≤ stop)
    (hHigh : stop < m.dim.size) : Current { m with dim := inside m.dim start stop } := by
  have hInt : INT_MAX = 2147483647 := rfl
  have hFits := h.fits
  refine ⟨h.size, h.fits, ⟨hLow, ?_⟩, ⟨?_, hHigh⟩, Int.le_refl 1, ?_⟩
  · change start < m.dim.size
    omega
  · change 0 ≤ stop
    omega
  · change stop - start + 1 = Dimension.countOf start 1 stop
    rw [Dimension.countOf, Int.tdiv_one, int32_of_bounds (n := stop - start) (by omega) (by omega),
      int32_of_bounds (by omega) (by omega)]

/-- What a clause does with the map that it names. -/
theorem apply_found {m : GridMap T} {l : Nat} (hFound : grid.maps.findIdx (·.name = clause.mapName) = l)
    (hAt : grid.maps[l]? = some m) :
    applyGridSelectionExpr clause grid =
      (if max m.dim.start clause.start > min m.dim.stop clause.stop then throw (noSubset clause)
      else do
        let dim ← Call.ofExcept (m.dim.addConstraint (max m.dim.start clause.start) 1 (min m.dim.stop clause.stop))
        modify fun grid => { grid with maps := grid.maps.set l { m with dim := dim } }
        Call.on MapGrid.array (fun grid array => { grid with array := array })
          (Dap2.Array.addConstraint l (max m.dim.start clause.start) 1 (min m.dim.stop clause.stop)) :
        Call (MapGrid T) Unit) grid := by
  rw [applyGridSelectionExpr, get_bind]
  dsimp only
  rw [hFound, hAt]

/-- A clause is refused because it has nothing in common with the range of its map, or it leaves the intersection. -/
theorem apply_cases (h : Matching grid) (hNamed : ∃ m ∈ grid.maps, m.name = clause.mapName) :
    (applyGridSelectionExpr clause grid = .error (noSubset clause) grid ∧
        ∃ m ∈ grid.maps, Named [clause] m ∧ ∀ i, ¬ InAll [clause] m i) ∨
      ∃ grid', applyGridSelectionExpr clause grid = .ok () grid' ∧ Matching grid' ∧
        grid'.maps.map GridMap.name = grid.maps.map GridMap.name ∧ Intersected [clause] grid grid' := by
  obtain ⟨m, hAt, hName⟩ := found_map hNamed
  rw [apply_found rfl hAt]
  generalize grid.maps.findIdx (·.name = clause.mapName) = l at hAt ⊢
  have hMem := List.mem_of_getElem? hAt
  have hCurrent := h.current m hMem
  obtain ⟨d, hDim, hSize⟩ := h.dims l m hAt
  have hAll (i : Int) : InAll [clause] m i ↔ max m.dim.start clause.start ≤ i ∧ i ≤ min m.dim.stop clause.stop := by
    rw [InAll, InRange, List.forall_mem_singleton, forall_prop_of_true hName.symm, max_le_iff, le_min_iff]
    constructor
    · rintro ⟨⟨hLow, hHigh⟩, hLow', hHigh'⟩
      exact ⟨⟨hLow, hLow'⟩, hHigh, hHigh'⟩
    · rintro ⟨⟨hLow, hLow'⟩, hHigh, hHigh'⟩
      exact ⟨⟨hLow, hHigh⟩, hLow', hHigh'⟩
  by_cases hEmpty : max m.dim.start clause.start > min m.dim.stop clause.stop
  · rw [if_pos hEmpty]
    refine .inl ⟨rfl, m, hMem, ⟨clause, List.mem_singleton_self clause, hName.symm⟩, ?_⟩
    intro i hi
    obtain ⟨hLow, hHigh⟩ := (hAll i).mp hi
    omega
  rw [if_neg hEmpty]
  have hLow : 0 ≤ max m.dim.start clause.start := le_trans hCurrent.start.1 (le_max_left _ _)
  have hHigh : min m.dim.stop clause.stop < m.dim.size := lt_of_le_of_lt (min_le_left _ _) hCurrent.stop.2
  generalize max m.dim.start clause.start = start at hAll hEmpty hLow ⊢
  generalize min m.dim.stop clause.stop = stop at hAll hEmpty hHigh ⊢
  have hMap := addConstraint_inside hCurrent.fits hLow (not_lt.mp hEmpty) hHigh
  have hArray := addConstraint_inside (hSize ▸ hCurrent.fits : d.size ≤ INT_MAX) hLow (not_lt.mp hEmpty) (hSize ▸ hHigh)
  have hLength : l < grid.maps.length := (List.getElem?_eq_some_iff.mp hAt).1
  have hLength' : l < grid.array.shape.length := (List.getElem?_eq_some_iff.mp hDim).1
  -- at the place of the map the constraint is the same, elsewhere nothing changes
  have hMaps (k : Nat) : (grid.maps.set l { m with dim := inside m.dim start stop })[k]? =
      if l = k then some { m with dim := inside m.dim start stop } else grid.maps[k]? := by
    by_cases hSame : l = k
    · rw [if_pos hSame, ← hSame, List.getElem?_set_self hLength]
    · rw [if_neg hSame, List.getElem?_set_ne hSame]
  have hDims (k : Nat) : (grid.array.shape.set l (inside d start stop))[k]? =
      if l = k then some (inside d start stop) else grid.array.shape[k]? := by
    by_cases hSame : l = k
    · rw [if_pos hSame, ← hSame, List.getElem?_set_self hLength']
    · rw [if_neg hSame, List.getElem?_set_ne hSame]
  have hNames : (grid.maps.set l { m with dim := inside m.dim start stop }).map GridMap.name =
      grid.maps.map GridMap.name := by
    apply List.ext_getElem?
    intro k
    rw [List.getElem?_map, List.getElem?_map, hMaps]
    split
    · rename_i hSame
      rw [← hSame, hAt]
      rfl
    · rfl
  refine .inr ⟨{ grid with
    array := Dap2.Array.updateLength { grid.array with shape := grid.array.shape.set l (inside d start stop) }
    maps := grid.maps.set l { m with dim := inside m.dim start stop } }, ?_, ?_, ?_, ?_⟩
  · rw [hMap]
    refine Call.bind_ok.mpr ⟨_, grid, rfl, Call.bind_ok.mpr ⟨(), _, rfl, ?_⟩⟩
    exact Call.on_ok.mpr ⟨_, Dap2.Array.addConstraint_ok.mpr ⟨d, _, hDim, hArray, rfl⟩, rfl⟩
  · refine ⟨?_, ?_, ?_⟩
    · change ((grid.maps.set l _).map GridMap.name).Nodup
      rw [hNames]
      exact h.names
    · intro m' hm'
      obtain ⟨k, hk⟩ := List.getElem?_of_mem hm'
      change (grid.maps.set l _)[k]? = _ at hk
      rw [hMaps] at hk
      split at hk
      · cases hk
        exact inside_current hCurrent hLow (not_lt.mp hEmpty) hHigh
      · exact h.current m' (List.mem_of_getElem? hk)
    · intro k m' hk
      change (grid.maps.set l _)[k]? = _ at hk
      change ∃ d', (grid.array.shape.set l _)[k]? = some d' ∧ _
      rw [hMaps] at hk
      rw [hDims]
      split at hk
      · cases hk
        rename_i hSame
        rw [if_pos hSame]
        exact ⟨_, rfl, hSize⟩
      · rename_i hSame
        rw [if_neg hSame]
        exact h.dims k m' hk
  · exact hNames
  · intro k m₀ d₀ hk hd
    change ∃ m' d', (grid.maps.set l _)[k]? = some m' ∧ (grid.array.shape.set l _)[k]? = some d' ∧ _
    rw [hMaps, hDims]
    by_cases hSame : l = k
    · subst hSame
      rw [hAt] at hk
      rw [hDim] at hd
      cases hk
      cases hd
      rw [if_pos rfl, if_pos rfl]
      exact ⟨_, _, rfl, rfl, rfl, fun i => (hAll i).symm, fun _ => ⟨rfl, rfl, rfl, rfl⟩⟩
    · rw [if_neg hSame, if_neg hSame]
      have hOther : clause.mapName ≠ m₀.name := fun hClause => hSame (same_place h.names hAt hk (hName.trans hClause))
      refine ⟨m₀, d₀, hk, hd, rfl, ?_, ?_⟩
      · intro i
        rw [InAll, List.forall_mem_singleton]
        exact (and_iff_left fun hClause => absurd hClause hOther).symm
      · rintro (⟨c, hc, hClause⟩ | hBefore)
        · rw [List.mem_singleton.mp hc] at hClause
          exact absurd hClause hOther
        · exact hBefore

/-! ## All clauses -/

theorem inAll_cons {c : GSEClause V} {m m' : GridMap T} (hName : m'.name = m.name)
    (h : ∀ i, InRange m' i ↔ InAll [c] m i) (clauses : List (GSEClause V)) (i : Int) :
    InAll clauses m' i ↔ InAll (c :: clauses) m i := by
  rw [InAll, h, InAll, InAll, List.forall_mem_singleton, List.forall_mem_cons, hName, and_assoc]

theorem Intersected.trans {c : GSEClause V} (hFirst : Intersected [c] grid grid')
    (hRest : Intersected clauses grid' grid'') : Intersected (c :: clauses) grid grid'' := by
  intro k m d hk hd
  obtain ⟨m', d', hk', hd', hName, hRange, hSame⟩ := hFirst k m d hk hd
  obtain ⟨m'', d'', hk'', hd'', hName', hRange', hSame'⟩ := hRest k m' d' hk' hd'
  refine ⟨m'', d'', hk'', hd'', hName'.trans hName, fun i => ?_, ?_⟩
  · rw [hRange', inAll_cons hName hRange]
  · rintro (⟨c', hc', hClause⟩ | hBefore)
    · rcases List.mem_cons.mp hc' with rfl | hc'
      · exact hSame' (.inr (hSame (.inl ⟨c', List.mem_singleton_self c', hClause⟩)))
      · exact hSame' (.inl ⟨c', hc', hClause.trans hName.symm⟩)
    · exact hSame' (.inr (hSame (.inr hBefore)))

/-- The clauses leave the intersections, or one of them is empty. -/
theorem applyClauses_cases (h : Matching grid) (hNamed : ∀ c ∈ clauses, ∃ m ∈ grid.maps, m.name = c.mapName) :
    (∃ c ∈ clauses, ∃ grid', applyClauses clauses grid = .error (noSubset c) grid' ∧
        ∃ m ∈ grid.maps, Named clauses m ∧ ∀ i, ¬ InAll clauses m i) ∨
      ∃ grid', applyClauses clauses grid = .ok () grid' ∧ Intersected clauses grid grid' := by
  induction clauses generalizing grid with
  | nil =>
    refine .inr ⟨grid, rfl, ?_⟩
    intro k m d hk hd
    refine ⟨m, d, hk, hd, rfl, fun i => ?_, ?_⟩
    · rw [InAll]
      exact (and_iff_left fun c hc => absurd hc List.not_mem_nil).symm
    · rintro (⟨c, hc, -⟩ | hBefore)
      · exact absurd hc List.not_mem_nil
      · exact hBefore
  | cons c clauses ih =>
    rcases apply_cases h (hNamed c List.mem_cons_self) with
      ⟨hRun, m, hm, ⟨c', hc', hName⟩, hEmpty⟩ | ⟨grid', hRun, hMatching, hNames, hInter⟩
    · refine .inl ⟨c, List.mem_cons_self, grid, ?_, m, hm, ⟨c, List.mem_cons_self, ?_⟩, ?_⟩
      · rw [applyClauses]
        exact Call.bind_error.mpr (.inl hRun)
      · rw [List.mem_singleton.mp hc'] at hName
        exact hName
      · rintro i ⟨hRange, hAll⟩
        refine hEmpty i ⟨hRange, ?_⟩
        intro d hd
        rw [List.mem_singleton.mp hd]
        exact hAll c List.mem_cons_self
    · have hNamed' : ∀ d ∈ clauses, ∃ m ∈ grid'.maps, m.name = d.mapName := by
        intro d hd
        obtain ⟨m, hm, hName⟩ := hNamed d (List.mem_cons_of_mem c hd)
        have hMem : d.mapName ∈ grid'.maps.map GridMap.name := by
          rw [hNames, ← hName]
          exact List.mem_map_of_mem hm
        obtain ⟨m', hm', hName'⟩ := List.mem_map.mp hMem
        exact ⟨m', hm', hName'⟩
      have hBind : applyClauses (c :: clauses) grid = applyClauses clauses grid' := by
        rw [applyClauses]
        exact Call.bind_of_ok hRun
      rw [hBind]
      rcases ih hMatching hNamed' with ⟨d, hd, grid'', hError, m', hm', ⟨e, he, hClause⟩, hEmpty⟩ | ⟨grid'', hOk, hRest⟩
      · obtain ⟨k, hk⟩ := List.getElem?_of_mem hm'
        have hPlace : k < grid.maps.length := by
          have hLength := congrArg List.length hNames
          rw [List.length_map, List.length_map] at hLength
          rw [← hLength]
          exact (List.getElem?_eq_some_iff.mp hk).1
        have hAt := List.getElem?_eq_getElem hPlace
        obtain ⟨dim, hDim, -⟩ := h.dims k _ hAt
        obtain ⟨m'', d'', hk', -, hName, hRange, -⟩ := hInter k _ dim hAt hDim
        obtain rfl := Option.some.inj (hk.symm.trans hk')
        refine .inl ⟨d, List.mem_cons_of_mem c hd, grid'', hError, _, List.mem_of_getElem? hAt,
          ⟨e, List.mem_cons_of_mem c he, hClause.trans hName⟩, ?_⟩
        intro i hi
        exact hEmpty i ((inAll_cons hName hRange clauses i).mpr hi)
      · exact .inr ⟨grid'', hOk, hInter.trans hRest⟩

/-- A clause keeps the smallest range under a condition on the map and the comparisons; the clauses together leave the
intersections of their ranges, or are refused because one is empty. -/
theorem grid_selection_iff (ord : Order T V) (print : T → String) (gridName map : String) {m : GridMap T}
    {t : Dap2.Numeric} (hType : m.type = .cardinal t) (hMap : Current m) {op1 op2 : Relop} (value1 value2 : V)
    (hFirst : op1.comparison = true) (hSecond : op2 = .nop ∨ op2.comparison = true) (hGrid : Matching grid)
    (hNamed : ∀ c ∈ clauses, ∃ m ∈ grid.maps, m.name = c.mapName) :
    ((∃ c, newClause ord print gridName map (some m) value1 op1 value2 op2 = .ok c ∧
      SmallestRange (Selected ord m op1 value1 op2 value2) c.start c.stop) ↔
      WholeFront m ∧ (op2 ≠ .nop → ∀ j, SatisfiedAt ord m op2 value2 j →
        Enclosed (fun i => InRange m i ∧ SatisfiedAt ord m op1 value1 i) j →
          Enclosed (Selected ord m op1 value1 op2 value2) j)) ∧
    ((∃ c ∈ clauses, ∃ grid', applyGridSelectionExpressions clauses grid = .error (noSubset c) grid' ∧
        ∃ m ∈ grid.maps, Named clauses m ∧ ∀ i, ¬ InAll clauses m i) ∨
      ∃ grid', applyGridSelectionExpressions clauses grid = .ok () grid' ∧ Intersected clauses grid grid') := by
  refine ⟨clause_iff print gridName map hType hMap hFirst hSecond, ?_⟩
  rcases applyClauses_cases hGrid hNamed with ⟨c, hc, grid', hRun, hEmpty⟩ | ⟨grid', hRun, hInter⟩
  · exact .inl ⟨c, hc, grid', Call.bind_error.mpr (.inl hRun), hEmpty⟩
  · exact .inr ⟨{ grid' with readP := false }, Call.bind_of_ok hRun, hInter⟩

end

def intOrder : Order Int Int := ⟨fun x v => x < v, fun x v => x = v, fun x v => x > v⟩

/-- A map that goes down and up again. -/
def valley : GridMap Int := ⟨"x", .cardinal .int32, ⟨3, "x", 0, 2, 1, 3⟩, [5, 1, 5]⟩

theorem valley_current : Current valley := ⟨rfl, by decide, by decide, by decide, by decide, by decide⟩

/-- No value is over 3 and below 2, but the clause keeps the one between the two that are over 3. -/
theorem gap_kept : ¬ ∀ (ord : Order Int Int) (print : Int → String) (gridName map : String) (m : GridMap Int)
    (t : Dap2.Numeric), m.type = .cardinal t → Current m → ∀ (op1 op2 : Relop) (value1 value2 : Int),
      op1.comparison = true → op2 = .nop ∨ op2.comparison = true →
        ∃ c, newClause ord print gridName map (some m) value1 op1 value2 op2 = .ok c ∧
          SmallestRange (Selected ord m op1 value1 op2 value2) c.start c.stop := by
  intro h
  obtain ⟨c, hRun, -, hEmpty⟩ := h intOrder (fun _ => "") "g" "x" valley .int32 rfl valley_current .greater .less 3 2
      rfl
    (.inr rfl)
  cases hRun
  have hNone : ∀ i, ¬ Selected intOrder valley .greater 3 .less 2 i := by
    rintro i ⟨-, ⟨x, hx, hOver⟩, hBelow⟩
    obtain ⟨y, hy, hLess⟩ := hBelow (by decide)
    obtain rfl := Option.some.inj (hx.symm.trans hy)
    have hAbove : 3 < x := of_decide_eq_true (Except.ok.inj hOver)
    have hUnder : x < 2 := of_decide_eq_true (Except.ok.inj hLess)
    omega
  exact absurd (hEmpty hNone) (by decide)

def valleyGrid : MapGrid Int := ⟨"g", ⟨"a", [⟨3, "x", 0, 2, 1, 3⟩], 3, true⟩, [valley], true⟩

theorem valleyGrid_matching : Matching valleyGrid := by
  refine ⟨by decide, ?_, ?_⟩
  · intro m hm
    rw [List.mem_singleton.mp hm]
    exact valley_current
  · intro k m hk
    obtain ⟨hLess, rfl⟩ := List.getElem?_eq_some_iff.mp hk
    obtain rfl : k = 0 := by
      have hOne : k < 1 := hLess
      omega
    exact ⟨_, rfl, rfl⟩

/-- The values over 3 of the valley are at its ends. -/
theorem valley_selected : ∃ c, newClause intOrder (fun _ => "") "g" "x" (some valley) 3 .greater 0 .nop = .ok c ∧
    SmallestRange (Selected intOrder valley .greater 3 .nop 0) c.start c.stop :=
  (grid_selection_iff intOrder (fun _ => "") "g" "x" rfl valley_current 3 0 rfl (.inl rfl) valleyGrid_matching
    fun c (hc : c ∈ ([] : List (GSEClause Int))) => absurd hc List.not_mem_nil).1.mpr
      ⟨⟨rfl, .inl rfl⟩, fun hNot => absurd rfl hNot⟩

end Libdap.Functions
