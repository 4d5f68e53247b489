import Libdap.Functions.GridCells

/-! # What is left of a Grid under a bounding box

The cells are carried over but for the Grids whose rows are turned around as if longitude was the last dimension.
-/

namespace Libdap.Functions
open Core
open Dap2 (Dimension)
set_option autoImplicit false

variable {α : Type} {g s : GridGeoConstraint α} {fore : List Dimension} {t b : Nat} {cols : List Nat}

/-! ## A Grid under a box -/

/-- With the indices of the box, and the rows from `t` to `b` if these are in order. -/
structure UnderBox (g : GridGeoConstraint α) (fore : List Dimension) (dLat dLon : Dimension) (t b : Nat) : Prop where
  grid : IsGrid g
  placed : Placed g fore dLat dLon
  rows : northern g.geo = (t, b)
  top : t < g.geo.lat.length
  bottom : b < g.geo.lat.length
  left : g.geo.longitudeIndexLeft < g.geo.lon.length
  right : g.geo.longitudeIndexRight < g.geo.lon.length
  set : g.geo.boundingBoxSet = true

/-- The selected columns. -/
def columns (g : GridGeoConstraint α) : List Nat :=
  ring g.geo.lon.length g.geo.longitudeIndexLeft g.geo.longitudeIndexRight

/-- The rows are not turned around, or the longitudes are the last dimension, or there are not both two rows and two
columns to turn around, or they are refused. -/
def KeepsRows (g : GridGeoConstraint α) : Prop :=
  g.geo.latitudeSense ≠ .inverted ∨ g.geo.longitudeRightmost = true ∨
    g.geo.latitudeIndexTop ≤ g.geo.latitudeIndexBottom ∨ g.geo.longitudeIndexRight ≤ g.geo.longitudeIndexLeft ∨
    tuples ((others g).map indices) = []

section
variable {dLat dLon : Dimension}

theorem UnderBox.rows_perm (h : UnderBox g fore dLat dLon t b) (hOrder : t ≤ b) :
    (List.range' t (b - t + 1)).Perm ((List.range g.geo.lat.length).filter fun k =>
      min g.geo.latitudeIndexTop g.geo.latitudeIndexBottom ≤ k ∧
        k ≤ max g.geo.latitudeIndexTop g.geo.latitudeIndexBottom) := by
  have hEnds : min g.geo.latitudeIndexTop g.geo.latitudeIndexBottom = t ∧
      max g.geo.latitudeIndexTop g.geo.latitudeIndexBottom = b := by
    have hRows := h.rows
    rw [northern] at hRows
    split at hRows <;> cases hRows <;> omega
  rw [hEnds.1, hEnds.2]
  exact between_perm hOrder h.bottom

theorem UnderBox.carried (h : UnderBox g fore dLat dLon t b) (hOrder : t ≤ b) {g' : GridGeoConstraint α}
    {rows : List Nat}
    (hRows : rows.Perm (List.range' t (b - t + 1))) (hLabels : Labelled g.geo.lat g.geo.lon g g' rows (columns g))
    (hBuf : g'.array.buf =
      arranged g.geo.longitudeRightmost (fore.map indices) rows (columns g) g.array.cell) :
    CellsCarried g.geo.lat g.geo.lon g g' := by
  refine ⟨rows, columns g, hRows.trans (h.rows_perm hOrder), ring_perm h.left h.right, { hLabels with values := ?_ }⟩
  rw [hBuf, h.placed.others, arranged]
  cases g.geo.longitudeRightmost <;> rfl

/-- What the loop leaves there are the values with the rows in the other order. -/
theorem UnderBox.turned_kept (h : UnderBox g fore dLat dLon t b) (hOrder : t ≤ b)
    (hSense : g.geo.latitudeSense = .inverted)
    (hJoin : g.geo.longitudeRightmost = true ∨ g.geo.longitudeIndexLeft ≤ g.geo.longitudeIndexRight)
    (hSome : tuples (fore.map indices) ≠ []) (hKeeps : KeepsRows g) :
    turned (tuples (fore.map indices))
        (blockOf g.geo.longitudeRightmost (List.range' t (b - t + 1)) (columns g) g.array.cell) (b - t + 1)
        (columns g).length =
      arranged g.geo.longitudeRightmost (fore.map indices) (List.range' t (b - t + 1)).reverse (columns g)
        g.array.cell := by
  have hRows : (List.range' t (b - t + 1)).length = b - t + 1 := List.length_range'
  rw [KeepsRows, h.placed.others] at hKeeps
  by_cases hRight : g.geo.longitudeRightmost = true
  · have hTurned := turned_layout (fore.map indices) (List.range' t (b - t + 1)) (columns g) g.array.cell
    rw [hRows] at hTurned
    rw [hRight]
    exact hTurned
  have hInside := hJoin.resolve_left hRight
  have hPlaces := h.rows
  rw [northern, if_pos hSense] at hPlaces
  cases hPlaces
  rcases hKeeps with hNot | hNot | hOne | hOne | hNone
  · exact absurd hSense hNot
  · exact absurd hNot hRight
  · have hSame : g.geo.latitudeIndexTop = g.geo.latitudeIndexBottom := by omega
    rw [hSame, Nat.sub_self, Nat.zero_add, List.range'_one, List.reverse_singleton, arranged_blocks]
    refine turned_row fun o _ => ?_
    rw [length_blockOf, List.length_singleton, Nat.one_mul]
  · have hSame : columns g = [g.geo.longitudeIndexLeft] := by
      rw [columns, ring, if_neg (Nat.not_lt.mpr hInside), show
        g.geo.longitudeIndexRight - g.geo.longitudeIndexLeft + 1 = 1 by omega, List.range'_one]
    have hTurned := turned_column (fore.map indices) g.geo.longitudeIndexLeft (List.range' g.geo.latitudeIndexBottom
      (g.geo.latitudeIndexTop - g.geo.latitudeIndexBottom + 1)) g.array.cell
    rw [hRows] at hTurned
    rw [hSame, Bool.eq_false_iff.mpr hRight]
    exact hTurned
  · exact absurd hNone hSome

end

/-! ## Rows in their order and turned around -/

theorem Ready.held_size (h : Ready g s fore t b cols) {data : List α} (hData : s.geo.arrayData = some data) :
    GeoArray.constrainedSize s.array.shape = data.length := by
  have hBlocks := h.blocks
  rw [hData, Option.getD_some] at hBlocks
  rw [h.size, hBlocks, length_rows fun o _ => length_blockOf _ _ _ _ o, List.length_range']

section
variable [Inhabited α]

theorem flipLatitude_kept (h : s.geo.latitudeSense ≠ .inverted) : flipLatitude s = .ok () s := by
  rw [flipLatitude, get_bind, if_neg h]
  rfl

theorem kept_rows (h : Ready g s fore t b cols) (hOrder : t ≤ b) (hb : b < g.geo.lat.length)
    (hSense : g.geo.latitudeSense ≠ .inverted) :
    ∃ g', (do flipLatitude; setValues) s = .ok () g' ∧
      Labelled g.geo.lat g.geo.lon g g' (List.range' t (b - t + 1)) cols ∧
      g'.array.buf = arranged g.geo.longitudeRightmost (fore.map indices)
        (List.range' t (b - t + 1)) cols g.array.cell := by
  have hRows : (List.range' t (b - t + 1)).length = b - t + 1 := List.length_range'
  obtain ⟨g', hRun, hLabels, hBuf⟩ := setValues_ok (g := g) g.geo.lat (List.range' t (b - t + 1)) t h.top
    (by rw [h.top, h.bottom, hRows]) (by rw [hRows, h.lat]; exact rowAt_indices (by omega)) rfl h.columns h.longitudes
    (by rw [hRows]; exact h.latMap) h.lonMap (by rw [hRows]; exact h.latDim_at) h.lonDim_at fun _ => h.held_size
  refine ⟨g', ?_, hLabels, hBuf.trans h.values⟩
  rw [Call.bind_of_ok (flipLatitude_kept (by rw [h.sense]; exact hSense))]
  exact hRun

theorem turned_rows (h : Ready g s fore t b cols) (hOrder : t ≤ b) (hb : b < g.geo.lat.length)
    (hSense : g.geo.latitudeSense = .inverted) (hSome : tuples (fore.map indices) ≠ []) :
    ∃ g', (do flipLatitude; setValues) s = .ok () g' ∧
      Labelled g.geo.lat g.geo.lon g g' (List.range' t (b - t + 1)).reverse cols ∧
      g'.array.buf = turned (tuples (fore.map indices))
        (blockOf g.geo.longitudeRightmost (List.range' t (b - t + 1)) cols g.array.cell) (b - t + 1) cols.length := by
  have hRows : (List.range' t (b - t + 1)).reverse.length = b - t + 1 := by
    rw [List.length_reverse, List.length_range']
  obtain ⟨s', hFlip, hGeo, hShape, hLatMap, hLonMap⟩ := flipLatitude_ok h hSense hSome
  have hLatitudes : (rowAt s'.geo.lat t (b - t + 1)).map some =
      (List.range' t (b - t + 1)).reverse.map (g.geo.lat[·]?) := by
    have hInside : t + (b - t + 1) ≤ g.geo.lat.length := by omega
    rw [hGeo]
    dsimp only
    rw [h.lat, rowAt_transposed hInside, List.map_reverse, rowAt_indices hInside, List.map_reverse]
  have hTurned : (turned (tuples (fore.map indices))
      (blockOf g.geo.longitudeRightmost (List.range' t (b - t + 1)) cols g.array.cell) (b - t + 1) cols.length).length =
        (tuples (fore.map indices)).length * ((b - t + 1) * cols.length) := by
    refine length_rows fun o _ => ?_
    rw [length_rows (w := cols.length), List.length_reverse, List.length_range]
    intro i hi
    rw [List.mem_reverse, List.mem_range] at hi
    refine length_rowAt ?_
    rw [length_blockOf, List.length_range', ← Nat.succ_mul]
    exact Nat.mul_le_mul_right _ hi
  obtain ⟨g', hRun, hLabels, hBuf⟩ := setValues_ok (g := g) (s := s') g.geo.lat
    (List.range' t (b - t + 1)).reverse t (by rw [hGeo]; exact h.top)
    (by rw [hGeo, hRows]; dsimp only; rw [h.top, h.bottom]) (by rw [hRows]; exact hLatitudes) rfl
    (by rw [hGeo]; exact h.columns) (by rw [hGeo]; exact h.longitudes)
    (by rw [hRows, hLatMap]; exact h.latMap) (by rw [hLonMap]; exact h.lonMap)
    (by rw [hRows, hShape]; exact h.latDim_at) (by rw [hShape]; exact h.lonDim_at) (by
      intro data hData
      rw [hGeo] at hData
      rw [hShape, h.size, ← Option.some.inj hData, hTurned])
  refine ⟨g', ?_, hLabels, ?_⟩
  · rw [Call.bind_of_ok hFlip]
    exact hRun
  · rw [hBuf, hGeo]
    rfl

/-! ## The steps up to there -/

section
variable {dLat dLon : Dimension}

theorem UnderBox.steps (h : UnderBox g fore dLat dLon t b) :
    applyConstraintToData g = (do constrainLatitude; joinLongitudes; constrainLongitude; flipLatitude; setValues)
      g := by
  rw [applyConstraintToData, get_bind, if_neg (by rw [h.set]; decide)]

theorem UnderBox.constrained (h : UnderBox g fore dLat dLon t b) (hOrder : t ≤ b)
    (hJoin : g.geo.longitudeRightmost = true ∨ g.geo.longitudeIndexLeft ≤ g.geo.longitudeIndexRight) :
    ∃ s, Ready g s fore t b (columns g) ∧ applyConstraintToData g = (do flipLatitude; setValues) s := by
  obtain ⟨s₁, hLatitude, hConstrained⟩ := latitude_constrained h.grid h.placed h.rows hOrder h.bottom
  obtain ⟨s₂, dLon', hLongitude, hSize, hJoined⟩ := longitudes_joined hConstrained hOrder h.grid.unread h.grid.fits.2
    (h.grid.lonDim _ h.placed.lon_at) h.left h.right hJoin
  obtain ⟨s₃, hRun, hReady⟩ := longitude_constrained hJoined hOrder h.grid.fits.2 hSize h.grid.longitude
  refine ⟨s₃, hReady, ?_⟩
  rw [h.steps, Call.bind_of_ok hLatitude,
    Call.bind_of_ok hLongitude, Call.bind_of_ok hRun]

theorem UnderBox.reversed (h : UnderBox g fore dLat dLon t b) (hOrder : b < t) :
    ∃ e g', applyConstraintToData g = .error e g' := by
  obtain ⟨e, g', hThrow⟩ := constrainLatitude_reversed h.rows hOrder
  rw [h.steps, Call.bind_of_error hThrow]
  exact ⟨e, g', rfl⟩

/-- A range over the end of the map needs the longitudes in the last dimension. -/
theorem UnderBox.refused (h : UnderBox g fore dLat dLon t b) (hOrder : t ≤ b)
    (hRight : g.geo.longitudeRightmost = false) (hSeam : g.geo.longitudeIndexRight < g.geo.longitudeIndexLeft) :
    ∃ e g', applyConstraintToData g = .error e g' := by
  obtain ⟨s, hLatitude, hConstrained⟩ := latitude_constrained h.grid h.placed h.rows hOrder h.bottom
  obtain ⟨e, g', hThrow⟩ := joinLongitudes_refused (g := s) (by rw [hConstrained.geo]; exact hSeam)
    (by rw [hConstrained.geo]; exact hRight)
  rw [h.steps, Call.bind_of_ok hLatitude,
    Call.bind_of_error hThrow]
  exact ⟨e, g', rfl⟩

/-! ## Which cells are carried over -/

theorem UnderBox.cells_carried (h : UnderBox g fore dLat dLon t b) (hKeeps : KeepsRows g) {g' : GridGeoConstraint α}
    (hRun : applyConstraintToData g = .ok () g') : CellsCarried g.geo.lat g.geo.lon g g' := by
  rcases Nat.lt_or_ge b t with hReversed | hOrder
  · obtain ⟨e, s, hThrow⟩ := h.reversed hReversed
    rw [hThrow] at hRun
    cases hRun
  by_cases hJoin : g.geo.longitudeRightmost = true ∨ g.geo.longitudeIndexLeft ≤ g.geo.longitudeIndexRight
  · obtain ⟨s, hReady, hSteps⟩ := h.constrained hOrder hJoin
    rw [hSteps] at hRun
    by_cases hSense : g.geo.latitudeSense = .inverted
    · by_cases hSome : tuples (fore.map indices) = []
      · obtain ⟨e, s', hThrow⟩ := flipLatitude_empty hReady hSense hSome
        rw [Call.bind_of_error hThrow] at hRun
        cases hRun
      · obtain ⟨g'', hTurn, hLabels, hBuf⟩ := turned_rows hReady hOrder h.bottom hSense hSome
        rw [hTurn] at hRun
        cases hRun
        exact h.carried hOrder (List.reverse_perm _) hLabels
          (hBuf.trans (h.turned_kept hOrder hSense hJoin hSome hKeeps))
    · obtain ⟨g'', hKept, hLabels, hBuf⟩ := kept_rows hReady hOrder h.bottom hSense
      rw [hKept] at hRun
      cases hRun
      exact h.carried hOrder (List.Perm.refl _) hLabels hBuf
  · obtain ⟨hRight, hSeam⟩ := not_or.mp hJoin
    obtain ⟨e, s, hThrow⟩ := h.refused hOrder (Bool.eq_false_iff.mpr hRight) (Nat.not_le.mp hSeam)
    rw [hThrow] at hRun
    cases hRun

theorem rows_eq {lat : List Rat} (hNodup : lat.Nodup) {rows rows' : List Nat} (hIn : ∀ k ∈ rows, k < lat.length)
    (h : rows.map (lat[·]?) = rows'.map (lat[·]?)) : rows = rows' := by
  have hLength := congrArg List.length h
  rw [List.length_map, List.length_map] at hLength
  refine List.ext_getElem hLength fun i hi hi' => ?_
  have hAt := congrArg (·[i]?) h
  rw [List.getElem?_map, List.getElem?_map, List.getElem?_eq_getElem hi, List.getElem?_eq_getElem hi'] at hAt
  exact (List.getElem?_inj (hIn _ (List.getElem_mem hi)) hNodup).mp (Option.some.inj hAt)

/-- With two rows and two columns to turn around and the latitudes as the last dimension, there is no other way to name
the columns. -/
theorem UnderBox.turned_apart [Nontrivial α] (hNodup : g.geo.lat.Nodup)
    (h : ∀ cell, UnderBox { g with array := { g.array with cell := cell } } fore dLat dLon t b)
    (hNot : ¬ KeepsRows g) :
    ∃ cell g', applyConstraintToData { g with array := { g.array with cell := cell } } = .ok () g' ∧
      ¬ CellsCarried g.geo.lat g.geo.lon { g with array := { g.array with cell := cell } } g' := by
  have hUnder := h g.array.cell
  rw [KeepsRows, show others g = fore from hUnder.placed.others] at hNot
  push Not at hNot
  obtain ⟨hSense, hRight, hRows, hCols, hSome⟩ := hNot
  have hPlaces : northern g.geo = (t, b) := hUnder.rows
  rw [northern, if_pos hSense] at hPlaces
  cases hPlaces
  have hJoin := Nat.le_of_lt hCols
  have hColumns : columns g = List.range' g.geo.longitudeIndexLeft
      (g.geo.longitudeIndexRight - g.geo.longitudeIndexLeft + 1) := by
    rw [columns, ring, if_neg (Nat.not_lt.mpr hJoin)]
  have hOthers : g.geo.latitudeIndexTop - g.geo.latitudeIndexBottom + 1 = (List.range' g.geo.latitudeIndexBottom
      (g.geo.latitudeIndexTop - g.geo.latitudeIndexBottom + 1)).length := List.length_range'.symm
  obtain ⟨cell, hWrong⟩ := turned_wrong (α := α) (columns g) (List.range' g.geo.latitudeIndexBottom
    (g.geo.latitudeIndexTop - g.geo.latitudeIndexBottom + 1)) hSome (by rw [hColumns, List.length_range']; omega)
    (by rw [List.length_range']; omega) List.nodup_range'
  obtain ⟨s, hReady, hSteps⟩ := (h cell).constrained (Nat.le_of_lt hRows) (.inr hJoin)
  obtain ⟨g', hTurn, hLabels, hBuf⟩ := turned_rows hReady (Nat.le_of_lt hRows) (h cell).bottom hSense hSome
  refine ⟨cell, g', hSteps.trans hTurn, ?_⟩
  rintro ⟨rows', cols', hRowsPerm, hColsPerm, hCarried⟩
  have hSameRows := rows_eq hNodup (fun k hk => List.mem_range.mp (List.mem_filter.mp (hRowsPerm.mem_iff.mp hk)).1)
    (hCarried.latitudes.symm.trans hLabels.latitudes)
  have hRingPerm := hColsPerm.trans (ring_perm (h cell).left (h cell).right).symm
  have hValues := hCarried.values
  rw [(h cell).placed.others, if_neg (by exact hRight), hSameRows, hBuf] at hValues
  refine hWrong cols' (hColsPerm.nodup_iff.mpr (List.nodup_range.filter _)) hRingPerm.length_eq ?_
  rw [List.length_range']
  rw [Bool.eq_false_iff.mpr hRight] at hValues
  exact hValues

end

end

/-! ## The constraint of a Grid -/

/-- With a box, and with the values that the data source has. -/
def GridGeoConstraint.boxed (g : GridGeoConstraint α) (geo : GeoConstraint α) (cell : List Nat → α) :
    GridGeoConstraint α :=
  { g with geo := geo, array := { g.array with cell := cell } }

section
variable {g₀ g₁ : GridGeoConstraint α} {geo : GeoConstraint α}

theorem two_last {shape : List Dimension} {n : Nat} (h : n + 2 = shape.length) :
    ∃ fore d e, shape = fore ++ [d, e] ∧ fore.length = n := by
  obtain ⟨d, e, hLast⟩ := List.length_eq_two.mp (show (shape.drop n).length = 2 by rw [List.length_drop]; omega)
  refine ⟨shape.take n, d, e, ?_, by rw [List.length_take]; omega⟩
  rw [← hLast, List.take_append_drop]

theorem placed_of_ok (h : latLonDimensionsOk g₀ = .ok true g₁) :
    ∃ r fore lat lon, g₁ = { g₀ with geo := { g₀.geo with longitudeRightmost := r } } ∧ Placed g₁ fore lat lon := by
  rw [latLonDimensionsOk, get_bind] at h
  dsimp only at h
  split at h
  · rename_i hPlaces
    rw [modify_bind] at h
    cases h
    obtain ⟨fore, lat, lon, hShape, hLength⟩ := two_last hPlaces.2
    refine ⟨true, fore, lat, lon, rfl, ⟨hShape, ?_, ?_⟩⟩ <;>
      · dsimp only
        rw [if_pos rfl]
        omega
  · split at h
    · rename_i hPlaces
      rw [modify_bind] at h
      cases h
      obtain ⟨fore, lon, lat, hShape, hLength⟩ := two_last hPlaces.2
      refine ⟨false, fore, lat, lon, rfl, ⟨hShape, ?_, ?_⟩⟩ <;>
        · dsimp only
          rw [if_neg Bool.false_ne_true]
          omega
    · cases h

theorem isGrid_boxed (h : IsGrid g₀) {r : Bool} (hBoxed : Boxed { g₀.geo with longitudeRightmost := r } geo)
    (cell : List Nat → α) : IsGrid (g₀.boxed geo cell) := by
  have hLat : geo.lat.length = g₀.geo.lat.length := congrArg List.length hBoxed.lat
  have hLon : geo.lon.length = g₀.geo.lon.length := by
    have hLength := congrArg List.length hBoxed.lon
    rwa [List.length_map, List.length_map] at hLength
  refine ⟨?_, ?_, ?_, ?_, ?_, hBoxed.arrayData.trans h.unread⟩
  · exact fun d hd => (h.latDim d hd).trans (congrArg _ hLat.symm)
  · exact fun d hd => (h.lonDim d hd).trans (congrArg _ hLon.symm)
  · exact h.latitude.trans (congrArg _ hLat.symm)
  · exact h.longitude.trans (congrArg _ hLon.symm)
  · change (geo.lat.length : Int) ≤ INT_MAX ∧ (geo.lon.length : Int) ≤ INT_MAX
    rw [hLat, hLon]
    exact h.fits

variable {doubleToString : Rat → String} {top left bottom right : Rat}

theorem under_box (hGrid : IsGrid g₀) (hDims : latLonDimensionsOk g₀ = .ok true g₁)
    (hBox : setBoundingBox doubleToString top left bottom right g₁.geo = .ok () geo) :
    geo.lat = g₀.geo.lat ∧ geo.lon.map meridian = g₀.geo.lon.map meridian ∧
      ∃ fore dLat dLon t b, ∀ cell, UnderBox (g₁.boxed geo cell) fore dLat dLon t b := by
  obtain ⟨r, fore, dLat, dLon, hSame, hPlaced⟩ := placed_of_ok hDims
  have hBoxed := setBoundingBox_boxed hBox
  rw [hSame] at hBoxed
  have hLon : geo.lon.length = g₀.geo.lon.length := by
    have hLength := congrArg List.length hBoxed.lon
    rwa [List.length_map, List.length_map] at hLength
  have hLat : geo.lat.length = g₀.geo.lat.length := congrArg List.length hBoxed.lat
  refine ⟨hBoxed.lat, hBoxed.lon, fore, dLat, dLon, (northern geo).1, (northern geo).2, fun cell => ?_⟩
  have hTop : geo.latitudeIndexTop < geo.lat.length := hLat ▸ hBoxed.top
  have hBottom : geo.latitudeIndexBottom < geo.lat.length := hLat ▸ hBoxed.bottom
  have hRows : (northern geo).1 < geo.lat.length ∧ (northern geo).2 < geo.lat.length := by
    rw [northern]
    split
    · exact ⟨hBottom, hTop⟩
    · exact ⟨hTop, hBottom⟩
  have hRight : geo.longitudeRightmost = g₁.geo.longitudeRightmost := by
    rw [hSame]
    exact hBoxed.rightmost
  refine { grid := ?_, placed := ?_, rows := rfl, top := hRows.1, bottom := hRows.2, left := hLon ▸ hBoxed.left,
           right := hLon ▸ hBoxed.right, set := hBoxed.set }
  · rw [hSame]
    exact isGrid_boxed hGrid hBoxed cell
  · obtain ⟨hShape, hLatDim, hLonDim⟩ := hPlaced
    rw [← hRight] at hShape hLatDim hLonDim
    exact ⟨hShape, hLatDim, hLonDim⟩

end

theorem CellsCarried.meridians {lat lon lon' : List Rat} {g' : GridGeoConstraint α}
    (hSame : lon.map meridian = lon'.map meridian) (h : CellsCarried lat lon g g') : CellsCarried lat lon' g g' := by
  have hLength := congrArg List.length hSame
  rw [List.length_map, List.length_map] at hLength
  have hAt (k : Nat) : lon[k]?.map meridian = lon'[k]?.map meridian := by
    rw [← List.getElem?_map, hSame, List.getElem?_map]
  obtain ⟨rows, cols, hRows, hCols, hCarried⟩ := h
  rw [hLength] at hCols
  refine ⟨rows, cols, hRows, hCols, { hCarried with longitudes := ?_ }⟩
  rw [hCarried.longitudes]
  exact List.map_congr_left fun k _ => hAt k

def pair (name : String) : Dimension := { size := 2, name := name, start := 0, stop := 1, stride := 1, cSize := 2 }

/-- The longitudes 0 and 90, and two latitudes. -/
def square (lat : List Rat) (latDim lonDim : Nat) (longitudeRightmost : Bool) : GridGeoConstraint Int where
  geo := { lat := lat, lon := [0, 90], arrayData := none, latitudeIndexTop := 0, latitudeIndexBottom := 0,
           longitudeIndexLeft := 0, longitudeIndexRight := 0, boundingBoxSet := false,
           longitudeRightmost := longitudeRightmost, longitudeNotation := .unknownNotation,
           latitudeSense := .unknownSense }
  array := { shape := [pair "", pair ""], cell := fun _ => 0, buf := [], readP := false }
  latitude := { dim := pair "lat", buf := lat, readP := true }
  longitude := { dim := pair "lon", buf := [0, 90], readP := true }
  latDim := latDim
  lonDim := lonDim
  readP := false

/-- Under a box around all of it. -/
def covered (lat : List Rat) (longitudeRightmost : Bool) (top bottom : Nat) (sense : LatitudeSense) :
    GeoConstraint Int where
  lat := lat
  lon := [0, 90]
  arrayData := none
  latitudeIndexTop := top
  latitudeIndexBottom := bottom
  longitudeIndexLeft := 0
  longitudeIndexRight := 1
  boundingBoxSet := true
  longitudeRightmost := longitudeRightmost
  longitudeNotation := .pos
  latitudeSense := sense

theorem isGrid_square {lat : List Rat} (hTwo : lat.length = 2) (latDim lonDim : Nat) (longitudeRightmost : Bool) :
    IsGrid (square lat latDim lonDim longitudeRightmost) := by
  have hDim (i : Nat) (d : Dimension) (h : [pair "", pair ""][i]? = some d) : d.size = 2 := by
    have hMem := List.mem_of_getElem? h
    rw [List.mem_pair, or_self] at hMem
    rw [hMem]
    rfl
  refine ⟨fun d hd => ?_, fun d hd => hDim _ d hd, ?_, rfl, ?_, rfl⟩
  · rw [hDim _ d hd]
    exact congrArg _ hTwo.symm
  · exact congrArg Nat.cast hTwo.symm
  · change ((lat.length : Int) ≤ INT_MAX ∧ ((2 : Nat) : Int) ≤ INT_MAX)
    rw [hTwo]
    decide

theorem covered_ok {top bottom : Rat} {geo g : GeoConstraint Int}
    (h : (match setBoundingBox (fun _ => "") top 0 bottom 90 geo with
      | .ok _ geo' => decide (geo' = g)
      | .error _ _ => false) = true) : setBoundingBox (fun _ => "") top 0 bottom 90 geo = .ok () g := by
  split at h
  · rename_i hRun
    rw [hRun, of_decide_eq_true h]
  · cases h

end Libdap.Functions
