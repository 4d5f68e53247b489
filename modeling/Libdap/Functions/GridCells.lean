import Libdap.Functions.GridSteps

/-! # The cells of a Grid under a bounding box

Coordinates and values are rearranged apart from each other, and what is left has to be a part of the Grid, with each
value at its coordinates.
-/

namespace Libdap.Functions
open Core
open Dap2 (Dimension)
set_option autoImplicit false

variable {α : Type} {g g' : GridGeoConstraint α}

/-- The maps are as long as the dimensions they go with, and nothing is read yet. -/
structure IsGrid (g : GridGeoConstraint α) : Prop where
  latDim : ∀ d, g.array.shape[g.latDim]? = some d → d.size = g.geo.lat.length
  lonDim : ∀ d, g.array.shape[g.lonDim]? = some d → d.size = g.geo.lon.length
  latitude : g.latitude.dim.size = g.geo.lat.length
  longitude : g.longitude.dim.size = g.geo.lon.length
  fits : (g.geo.lat.length : Int) ≤ INT_MAX ∧ (g.geo.lon.length : Int) ≤ INT_MAX
  unread : g.geo.arrayData = none

/-- The dimensions other than latitude and longitude. -/
def others (g : GridGeoConstraint α) : List Dimension := g.array.shape.dropLast.dropLast

/-- The maps have the latitudes of some rows and the longitudes of some columns, these modulo 360, and the array has the
sizes of the maps. -/
structure Labelled (lat lon : List Rat) (g g' : GridGeoConstraint α) (rows cols : List Nat) : Prop where
  latitudes : g'.latitude.buf.map some = rows.map (lat[·]?)
  longitudes : g'.longitude.buf.map (some ∘ meridian) = cols.map fun k => lon[k]?.map meridian
  mapSizes : g'.latitude.dim.cSize = rows.length ∧ g'.longitude.dim.cSize = cols.length
  arraySizes : (g'.array.shape[g.latDim]?).map Dimension.cSize = some (rows.length : Int) ∧
    (g'.array.shape[g.lonDim]?).map Dimension.cSize = some (cols.length : Int)

/-- The result has rows and columns of the source, each with its coordinate and its values. -/
structure Carried (lat lon : List Rat) (g g' : GridGeoConstraint α) (rows cols : List Nat) : Prop
    extends Labelled lat lon g g' rows cols where
  values : g'.array.buf = (tuples ((others g).map indices ++
    if g.geo.longitudeRightmost then [rows, cols] else [cols, rows])).map g.array.cell

/-- Each row in the range of latitudes and each column in the circular range of longitudes is there once. -/
def CellsCarried (lat lon : List Rat) (g g' : GridGeoConstraint α) : Prop :=
  ∃ rows cols : List Nat,
    rows.Perm ((List.range lat.length).filter fun k =>
      min g.geo.latitudeIndexTop g.geo.latitudeIndexBottom ≤ k ∧
        k ≤ max g.geo.latitudeIndexTop g.geo.latitudeIndexBottom) ∧
    cols.Perm ((List.range lon.length).filter fun k => InRing g.geo.longitudeIndexLeft g.geo.longitudeIndexRight k) ∧
    Carried lat lon g g' rows cols

/-! ## The Grid before its rows are turned around -/

/-- The values at some indices, with the longitudes in the last dimension or in the one before it. -/
def arranged (rightmost : Bool) (fore : List (List Nat)) (rows cols : List Nat) (cell : List Nat → α) : List α :=
  if rightmost then layout fore rows cols cell else layout fore cols rows cell

/-- `lat` and `lon` are the two last dimensions. -/
structure Placed (g : GridGeoConstraint α) (fore : List Dimension) (lat lon : Dimension) : Prop where
  shape : g.array.shape = fore ++ if g.geo.longitudeRightmost then [lat, lon] else [lon, lat]
  latDim : g.latDim = if g.geo.longitudeRightmost then fore.length else fore.length + 1
  lonDim : g.lonDim = if g.geo.longitudeRightmost then fore.length + 1 else fore.length

section
variable {fore : List Dimension} {lat lon e : Dimension}

theorem Placed.lat_at (h : Placed g fore lat lon) : g.array.shape[g.latDim]? = some lat := by
  rw [h.shape, h.latDim]
  cases g.geo.longitudeRightmost <;> simp

theorem Placed.lon_at (h : Placed g fore lat lon) : g.array.shape[g.lonDim]? = some lon := by
  rw [h.shape, h.lonDim]
  cases g.geo.longitudeRightmost <;> simp

theorem Placed.set_lat (h : Placed g fore lat lon) :
    g.array.shape.set g.latDim e = fore ++ if g.geo.longitudeRightmost then [e, lon] else [lon, e] := by
  rw [h.shape, h.latDim]
  cases g.geo.longitudeRightmost
  · exact set_last
  · exact set_mid

theorem Placed.set_lon (h : Placed g fore lat lon) :
    g.array.shape.set g.lonDim e = fore ++ if g.geo.longitudeRightmost then [lat, e] else [e, lat] := by
  rw [h.shape, h.lonDim]
  cases g.geo.longitudeRightmost
  · exact set_mid
  · exact set_last

theorem Placed.read (h : Placed g fore lat lon) :
    g.array.read.buf =
      arranged g.geo.longitudeRightmost (fore.map indices) (indices lat) (indices lon) g.array.cell := by
  have hShape := h.shape
  rw [arranged]
  cases hRight : g.geo.longitudeRightmost
  · rw [hRight] at hShape
    rw [read_layout hShape]
    rfl
  · rw [hRight] at hShape
    rw [read_layout hShape]
    rfl

theorem Placed.others (h : Placed g fore lat lon) : others g = fore := by
  rw [Functions.others, h.shape]
  cases g.geo.longitudeRightmost <;> simp

theorem Placed.count (h : Placed g fore lat lon) :
    g.array.countSizeExceptLatitudeAndLongitude = (tuples (fore.map indices)).length := by
  have hShape := h.shape
  cases hRight : g.geo.longitudeRightmost
  · rw [hRight] at hShape
    exact count_others hShape
  · rw [hRight] at hShape
    exact count_others hShape

end

/-! ## Parts of the maps -/

section
variable {κ τ : Type} {xs : List κ} {i len : Nat}

theorem map_rowAt (f : κ → τ) : (rowAt xs i len).map f = rowAt (xs.map f) i len := by
  rw [rowAt, rowAt, List.map_take, List.map_drop]

theorem rowAt_indices (h : i + len ≤ xs.length) : (rowAt xs i len).map some = (List.range' i len).map (xs[·]?) := by
  apply List.ext_getElem?
  intro k
  rw [List.getElem?_map, List.getElem?_map]
  by_cases hk : k < len
  · rw [getElem?_rowAt hk, List.getElem?_range' hk, Option.map_some, Nat.one_mul, List.getElem?_eq_getElem (by omega),
      Option.map_some]
  · rw [List.getElem?_eq_none (by rw [length_rowAt h]; omega),
      List.getElem?_eq_none (by rw [List.length_range']; omega)]
    rfl

/-- With the same values modulo 360. -/
theorem rowAt_meridians {lon lon' source : List Rat} {cols : List Nat} (hSame : lon'.map meridian = lon.map meridian)
    (h : (rowAt lon i len).map some = cols.map (source[·]?)) :
    (rowAt lon' i len).map (some ∘ meridian) = cols.map fun k => source[k]?.map meridian :=
  calc (rowAt lon' i len).map (some ∘ meridian) = ((rowAt lon' i len).map meridian).map some := List.map_map.symm
    _ = ((rowAt lon i len).map meridian).map some := by rw [map_rowAt meridian, map_rowAt meridian, hSame]
    _ = ((rowAt lon i len).map some).map (Option.map meridian) := by rw [List.map_map, List.map_map]; rfl
    _ = cols.map fun k => source[k]?.map meridian := by rw [h, List.map_map]; rfl

end

/-- The two parts of a map whose ends are swapped. -/
theorem rowAt_swapped {lon : List Rat} {left right : Nat} (hRight : right < left) :
    rowAt (swapVectorEnds lon left) 0 (lon.length - left + right + 1) =
      rowAt lon left (lon.length - left) ++ rowAt lon 0 (right + 1) := by
  have hLength : (lon.drop left).length = lon.length - left := List.length_drop
  have hWhole : (lon.drop left).take (lon.length - left + right + 1) = lon.drop left :=
    List.take_of_length_le (by omega)
  have hExact : (lon.drop left).take (lon.length - left) = lon.drop left := List.take_of_length_le (by omega)
  have hFront : lon.length - left + right + 1 - (lon.length - left) = right + 1 := by omega
  rw [swapVectorEnds, rowAt, rowAt, rowAt, List.drop_zero, List.drop_zero, List.take_append, hLength, hWhole, hExact,
    hFront,
    List.take_take, Nat.min_eq_left (by omega)]

/-! ## Selected ranges -/

theorem between_perm {first last n : Nat} (hOrder : first ≤ last) (hLast : last < n) :
    (List.range' first (last - first + 1)).Perm ((List.range n).filter fun k => first ≤ k ∧ k ≤ last) := by
  rw [List.perm_ext_iff_of_nodup List.nodup_range' (List.nodup_range.filter _)]
  intro k
  rw [List.mem_range'_1, List.mem_filter, List.mem_range, decide_eq_true_iff]
  omega

theorem inRing_perm {left right n : Nat} (hOrder : left ≤ right) (hRight : right < n) :
    (List.range' left (right - left + 1)).Perm ((List.range n).filter fun k => InRing left right k) := by
  rw [List.perm_ext_iff_of_nodup List.nodup_range' (List.nodup_range.filter _)]
  intro k
  rw [List.mem_range'_1, List.mem_filter, List.mem_range, decide_eq_true_iff, inRing_le hOrder]
  omega

theorem seam_perm {left right n : Nat} (hSeam : right < left) (hLeft : left < n) :
    (List.range' left (n - left) ++ List.range' 0 (right + 1)).Perm
      ((List.range n).filter fun k => InRing left right k) := by
  rw [List.perm_ext_iff_of_nodup _ (List.nodup_range.filter _)]
  · intro k
    rw [List.mem_append, List.mem_range'_1, List.mem_range'_1, List.mem_filter, List.mem_range, decide_eq_true_iff,
      inRing_lt hSeam]
    omega
  · refine List.nodup_append.mpr ⟨List.nodup_range', List.nodup_range', ?_⟩
    intro k hk l hl
    rw [List.mem_range'_1] at hk hl
    omega

/-- The columns from the left one to the right one, over the end of the map where the right one is before the left one. -/
def ring (n left right : Nat) : List Nat :=
  if right < left then List.range' left (n - left) ++ List.range' 0 (right + 1) else List.range' left (right - left + 1)

theorem ring_perm {left right n : Nat} (hLeft : left < n) (hRight : right < n) :
    (ring n left right).Perm ((List.range n).filter fun k => InRing left right k) := by
  rw [ring]
  split
  · exact seam_perm (by assumption) hLeft
  · exact inRing_perm (by omega) hRight

/-! ## Constrained, and not yet turned around -/

/-- With the rows from `t` to `b` and the columns `cols` selected. -/
structure Ready (g s : GridGeoConstraint α) (fore : List Dimension) (t b : Nat) (cols : List Nat) : Prop where
  lat : s.geo.lat = g.geo.lat
  top : s.geo.latitudeIndexTop = t
  bottom : s.geo.latitudeIndexBottom = b
  sense : s.geo.latitudeSense = g.geo.latitudeSense
  columns : s.geo.longitudeIndexRight - s.geo.longitudeIndexLeft + 1 = cols.length
  longitudes : (rowAt s.geo.lon s.geo.longitudeIndexLeft cols.length).map (some ∘ meridian) =
    cols.map fun k => g.geo.lon[k]?.map meridian
  placed : ∃ lat lon, Placed s fore lat lon ∧ lat.cSize = (b - t + 1 : Nat) ∧ lon.cSize = cols.length
  rightmost : s.geo.longitudeRightmost = g.geo.longitudeRightmost
  latDim : s.latDim = g.latDim
  lonDim : s.lonDim = g.lonDim
  values : s.geo.arrayData.getD s.array.read.buf =
    arranged g.geo.longitudeRightmost (fore.map indices) (List.range' t (b - t + 1)) cols g.array.cell
  latMap : s.latitude.dim.cSize = (b - t + 1 : Nat)
  lonMap : s.longitude.dim.cSize = cols.length

/-- The latitudes are constrained, and the longitudes not yet. -/
structure LatitudeConstrained (g s : GridGeoConstraint α) (fore : List Dimension) (dLat dLon : Dimension) (t b : Nat) :
    Prop where
  geo : s.geo = { g.geo with latitudeIndexTop := t, latitudeIndexBottom := b }
  longitude : s.longitude = g.longitude
  latMap : s.latitude.dim.cSize = (b - t + 1 : Nat)
  cell : s.array.cell = g.array.cell
  placed : Placed s fore (inside dLat t b) dLon
  latDim : s.latDim = g.latDim
  lonDim : s.lonDim = g.lonDim

/-- And the columns are one range of indices, of the map and of the data that are held, if there are some. -/
structure Joined (g s : GridGeoConstraint α) (fore : List Dimension) (dLat dLon : Dimension) (t b : Nat)
    (cols : List Nat) :
    Prop where
  lat : s.geo.lat = g.geo.lat
  top : s.geo.latitudeIndexTop = t
  bottom : s.geo.latitudeIndexBottom = b
  sense : s.geo.latitudeSense = g.geo.latitudeSense
  order : s.geo.longitudeIndexLeft ≤ s.geo.longitudeIndexRight
  inside : s.geo.longitudeIndexRight < g.geo.lon.length
  columns : s.geo.longitudeIndexRight - s.geo.longitudeIndexLeft + 1 = cols.length
  longitudes : (rowAt s.geo.lon s.geo.longitudeIndexLeft cols.length).map some = cols.map (g.geo.lon[·]?)
  longitude : s.longitude = g.longitude
  latMap : s.latitude.dim.cSize = (b - t + 1 : Nat)
  cell : s.array.cell = g.array.cell
  placed : Placed s fore (Functions.inside dLat t b) dLon
  rightmost : s.geo.longitudeRightmost = g.geo.longitudeRightmost
  latDim : s.latDim = g.latDim
  lonDim : s.lonDim = g.lonDim
  values : s.geo.arrayData = none ∧
      cols = List.range' s.geo.longitudeIndexLeft (s.geo.longitudeIndexRight - s.geo.longitudeIndexLeft + 1) ∨
    s.geo.arrayData = some
      (arranged g.geo.longitudeRightmost (fore.map indices) (List.range' t (b - t + 1)) cols g.array.cell)

theorem cSize_inside (d : Dimension) {first last : Nat} (h : first ≤ last) :
    (inside d first last).cSize = (last - first + 1 : Nat) := by
  change (last : Int) - first + 1 = (last - first + 1 : Nat)
  omega

section
variable {s : GridGeoConstraint α} {fore : List Dimension} {dLat dLon : Dimension} {t b : Nat}
  {cols : List Nat}

theorem latitude_constrained (hGrid : IsGrid g) (hPlaced : Placed g fore dLat dLon) (hIndices : northern g.geo = (t, b))
    (hOrder : t ≤ b) (hb : b < g.geo.lat.length) :
    ∃ s, constrainLatitude g = .ok () s ∧ LatitudeConstrained g s fore dLat dLon t b := by
  refine ⟨_, constrainLatitude_ok hIndices hOrder hb hGrid.fits.1 hGrid.latitude hPlaced.lat_at
    (hGrid.latDim _ hPlaced.lat_at), ⟨rfl, rfl, cSize_inside _ hOrder, rfl,
      ⟨hPlaced.set_lat, hPlaced.latDim, hPlaced.lonDim⟩,
    rfl, rfl⟩⟩

theorem longitudes_joined [Inhabited α] (h : LatitudeConstrained g s fore dLat dLon t b) (hOrder : t ≤ b)
    (hUnread : g.geo.arrayData = none) (hFits : (g.geo.lon.length : Int) ≤ INT_MAX)
    (hSize : dLon.size = g.geo.lon.length)
    (hLeft : g.geo.longitudeIndexLeft < g.geo.lon.length) (hRight : g.geo.longitudeIndexRight < g.geo.lon.length)
    (hJoin : g.geo.longitudeRightmost = true ∨ g.geo.longitudeIndexLeft ≤ g.geo.longitudeIndexRight) :
    ∃ (s' : GridGeoConstraint α) (dLon' : Dimension), joinLongitudes s = .ok () s' ∧ dLon'.size = g.geo.lon.length ∧
      Joined g s' fore dLat dLon' t b
        (ring g.geo.lon.length g.geo.longitudeIndexLeft g.geo.longitudeIndexRight) := by
  have hGeo := h.geo
  rw [ring]
  by_cases hSeam : g.geo.longitudeIndexRight < g.geo.longitudeIndexLeft
  · have hRightmost := hJoin.resolve_right (Nat.not_le.mpr hSeam)
    have hRightmost' : s.geo.longitudeRightmost = true := by
      rw [hGeo]
      exact hRightmost
    have hShape := h.placed.shape
    have hPlace := h.placed.lonDim
    rw [hRightmost', if_pos rfl] at hShape hPlace
    have hLeft' : s.geo.longitudeIndexLeft = g.geo.longitudeIndexLeft := by rw [hGeo]
    have hRight' : s.geo.longitudeIndexRight = g.geo.longitudeIndexRight := by rw [hGeo]
    have hLon : s.geo.lon = g.geo.lon := by rw [hGeo]
    obtain ⟨array, hRun, hCell, hArray⟩ := joinLongitudes_seam hRightmost' (congrArg List.length hLon) hFits
      (by rw [hLeft', hRight']; exact hSeam) (by rw [hLeft']; exact hLeft) hShape hPlace hSize
    rw [hLeft', hRight', hLon, h.cell, indices_inside dLat hOrder] at hRun
    refine ⟨_, inside dLon 0 s.geo.longitudeIndexRight, hRun, hSize, ?_⟩
    rw [if_pos hSeam]
    have hLength : (List.range' g.geo.longitudeIndexLeft (g.geo.lon.length - g.geo.longitudeIndexLeft) ++
        List.range' 0 (g.geo.longitudeIndexRight + 1)).length =
          g.geo.lon.length - g.geo.longitudeIndexLeft + g.geo.longitudeIndexRight + 1 := by
      rw [List.length_append, List.length_range', List.length_range']
      omega
    refine { lat := ?_, top := ?_, bottom := ?_, sense := ?_, order := Nat.zero_le _, inside := ?_, columns := ?_,
             longitudes := ?_, longitude := h.longitude, latMap := h.latMap, cell := hCell.trans h.cell,
             placed := ⟨?_, h.placed.latDim, h.placed.lonDim⟩, rightmost := ?_, latDim := h.latDim, lonDim := h.lonDim,
             values := .inr ?_ }
    · rw [hGeo]
    · rw [hGeo]
    · rw [hGeo]
    · rw [hGeo]
    · dsimp only
      omega
    · rw [hLength]
      rfl
    · dsimp only
      rw [hLength, rowAt_swapped hSeam, List.map_append, List.map_append, rowAt_indices (by omega),
        rowAt_indices (by omega)]
    · dsimp only
      rw [hRightmost', if_pos rfl]
      exact hArray
    · rw [hGeo]
    · rw [arranged, if_pos hRightmost]
  · have hRange := Nat.not_lt.mp hSeam
    refine ⟨s, dLon, joinLongitudes_inside (by rw [hGeo]; exact hRange), hSize, ?_⟩
    rw [if_neg hSeam]
    refine { lat := ?_, top := ?_, bottom := ?_, sense := ?_, order := ?_, inside := ?_, columns := ?_,
             longitudes := ?_, longitude := h.longitude, latMap := h.latMap, cell := h.cell, placed := h.placed,
             rightmost := ?_, latDim := h.latDim, lonDim := h.lonDim, values := .inl ?_ } <;> rw [hGeo]
    · exact hRange
    · exact hRight
    · rw [List.length_range']
    · rw [List.length_range']
      exact rowAt_indices (by dsimp only; omega)
    · exact ⟨hUnread, rfl⟩

theorem longitude_constrained (h : Joined g s fore dLat dLon t b cols) (hOrder : t ≤ b)
    (hFits : (g.geo.lon.length : Int) ≤ INT_MAX)
    (hSize : dLon.size = g.geo.lon.length) (hMap : g.longitude.dim.size = g.geo.lon.length) :
    ∃ s', constrainLongitude s = .ok () s' ∧ Ready g s' fore t b cols := by
  obtain ⟨s', hRun, hStep⟩ := constrainLongitude_ok h.order h.inside hFits (by rw [h.longitude]; exact hMap)
    h.placed.lon_at hSize
  obtain ⟨lon, hGeo, hSame⟩ := hStep.geo
  have hArray := hStep.array
  have hCell : s'.array.cell = g.array.cell := by rw [hArray, h.cell]
  have hRightmost : s'.geo.longitudeRightmost = g.geo.longitudeRightmost := by rw [hGeo, h.rightmost]
  have hCount : (inside dLon s.geo.longitudeIndexLeft s.geo.longitudeIndexRight).cSize = cols.length := by
    rw [cSize_inside _ h.order, h.columns]
  have hPlaced : Placed s' fore (inside dLat t b) (inside dLon s.geo.longitudeIndexLeft s.geo.longitudeIndexRight) := by
    refine ⟨?_, ?_, ?_⟩
    · rw [hArray, hRightmost, ← h.rightmost]
      exact h.placed.set_lon
    · rw [hStep.latDim, hRightmost, ← h.rightmost]
      exact h.placed.latDim
    · rw [hStep.lonDim, hRightmost, ← h.rightmost]
      exact h.placed.lonDim
  refine ⟨s', hRun, { lat := ?_, top := ?_, bottom := ?_, sense := ?_, columns := ?_, longitudes := ?_,
                      placed := ⟨_, _, hPlaced, cSize_inside _ hOrder, hCount⟩, rightmost := hRightmost,
                      latDim := hStep.latDim.trans h.latDim, lonDim := hStep.lonDim.trans h.lonDim, values := ?_,
                      latMap := ?_, lonMap := ?_ }⟩
  · rw [hGeo, h.lat]
  · rw [hGeo, h.top]
  · rw [hGeo, h.bottom]
  · rw [hGeo, h.sense]
  · rw [hGeo]
    exact h.columns
  · rw [hGeo]
    exact rowAt_meridians hSame h.longitudes
  · have hData : s'.geo.arrayData = s.geo.arrayData := by rw [hGeo]
    rw [hData]
    rcases h.values with ⟨hNone, hCols⟩ | hSome
    · rw [hNone, Option.getD_none, hPlaced.read, hRightmost, hCell, indices_inside _ hOrder, indices_inside _ h.order,
        ← hCols]
    · rw [hSome, Option.getD_some]
  · rw [hStep.latitude, h.latMap]
  · rw [hStep.longitude, h.longitude, cSize_inside _ h.order, h.columns]

/-! ## The last two steps -/

theorem setValues_ok (lat : List Rat) {lon : List Rat} (rows : List Nat) {cols : List Nat} (latAt : Nat) {lonAt : Nat}
    (hTop : s.geo.latitudeIndexTop = latAt) (hRows : s.geo.latitudeIndexBottom - s.geo.latitudeIndexTop + 1 =
      rows.length)
    (hLatitudes : (rowAt s.geo.lat latAt rows.length).map some = rows.map (lat[·]?))
    (hLeft : s.geo.longitudeIndexLeft = lonAt) (hCols : s.geo.longitudeIndexRight - s.geo.longitudeIndexLeft + 1 =
      cols.length)
    (hLongitudes : (rowAt s.geo.lon lonAt cols.length).map (some ∘ meridian) = cols.map fun k => lon[k]?.map meridian)
    (hLatMap : s.latitude.dim.cSize = rows.length) (hLonMap : s.longitude.dim.cSize = cols.length)
    (hLatDim : (s.array.shape[g.latDim]?).map Dimension.cSize = some (rows.length : Int))
    (hLonDim : (s.array.shape[g.lonDim]?).map Dimension.cSize = some (cols.length : Int))
    (hSize : ∀ data, s.geo.arrayData = some data → GeoArray.constrainedSize s.array.shape = data.length) :
    ∃ g', setValues s = .ok () g' ∧ Labelled lat lon g g' rows cols ∧
      g'.array.buf = s.geo.arrayData.getD s.array.read.buf := by
  have hLatLength := congrArg List.length hLatitudes
  have hLonLength := congrArg List.length hLongitudes
  rw [List.length_map, List.length_map] at hLatLength hLonLength
  have hLatSet : setArrayUsingDouble s.latitude (rowAt s.geo.lat latAt rows.length) =
      .ok { s.latitude with buf := rowAt s.geo.lat latAt rows.length, readP := true } := by
    rw [setArrayUsingDouble, if_neg (by rw [hLatMap, hLatLength]; exact fun h => h rfl)]
  have hLonSet : setArrayUsingDouble s.longitude (rowAt s.geo.lon lonAt cols.length) =
      .ok { s.longitude with buf := rowAt s.geo.lon lonAt cols.length, readP := true } := by
    rw [setArrayUsingDouble, if_neg (by rw [hLonMap, hLonLength]; exact fun h => h rfl)]
  rw [setValues, get_bind, hRows, hCols, hTop, hLeft, Call.ofExcept_bind_of_ok hLatSet,
    Call.ofExcept_bind_of_ok hLonSet,
    modify_bind]
  cases hData : s.geo.arrayData with
  | none => exact ⟨_, rfl, ⟨hLatitudes, hLongitudes, ⟨hLatMap, hLonMap⟩, hLatDim, hLonDim⟩, rfl⟩
  | some data =>
    dsimp only
    rw [if_neg (by rw [hSize data hData]; exact fun h => h rfl)]
    exact ⟨_, rfl, ⟨hLatitudes, hLongitudes, ⟨hLatMap, hLonMap⟩, hLatDim, hLonDim⟩, rfl⟩

/-- The blocks of rows and columns of the array, as they stand in memory. -/
def blockOf (rightmost : Bool) (rows cols : List Nat) (cell : List Nat → α) : List Nat → List α :=
  if rightmost then block rows cols cell else block cols rows cell

theorem arranged_blocks (rightmost : Bool) (others : List (List Nat)) (rows cols : List Nat) (cell : List Nat → α) :
    arranged rightmost others rows cols cell = (tuples others).flatMap (blockOf rightmost rows cols cell) := by
  cases rightmost
  · exact layout_blocks
  · exact layout_blocks

theorem length_blockOf (rightmost : Bool) (rows cols : List Nat) (cell : List Nat → α) (o : List Nat) :
    (blockOf rightmost rows cols cell o).length = rows.length * cols.length := by
  cases rightmost
  · exact (length_block o).trans (Nat.mul_comm _ _)
  · exact length_block o

theorem rowAt_transposed {lat : List Rat} {first len : Nat} (h : first + len ≤ lat.length) :
    rowAt (transposeVector lat first len) first len = (rowAt lat first len).reverse := by
  have hTake : (lat.take first).length = first := by
    rw [List.length_take]
    omega
  have hPart : (rowAt lat first len).reverse.length = len := by rw [List.length_reverse, length_rowAt h]
  rw [transposeVector, List.append_assoc, rowAt, List.drop_left' hTake, List.take_left' hPart]

theorem length_read (a : GeoArray α) : a.read.buf.length = GeoArray.constrainedSize a.shape := by
  rw [constrainedSize_eq, GeoArray.read, List.length_map]

theorem Ready.size (h : Ready g s fore t b cols) :
    GeoArray.constrainedSize s.array.shape = (tuples (fore.map indices)).length * ((b - t + 1) * cols.length) := by
  obtain ⟨lat, lon, hPlaced, hLat, hLon⟩ := h.placed
  rw [← length_read, hPlaced.read, arranged_blocks, length_rows fun o _ => length_blockOf _ _ _ _ o, length_indices,
    length_indices, hLat, hLon, Int.toNat_natCast, Int.toNat_natCast]

theorem Ready.blocks (h : Ready g s fore t b cols) :
    s.geo.arrayData.getD s.array.read.buf = (tuples (fore.map indices)).flatMap
      (blockOf g.geo.longitudeRightmost (List.range' t (b - t + 1)) cols g.array.cell) := by
  rw [h.values, arranged_blocks]

theorem Ready.latDim_at (h : Ready g s fore t b cols) :
    (s.array.shape[g.latDim]?).map Dimension.cSize = some ((b - t + 1 : Nat) : Int) := by
  obtain ⟨lat, lon, hPlaced, hLat, hLon⟩ := h.placed
  rw [← h.latDim, hPlaced.lat_at, Option.map_some, hLat]

theorem Ready.lonDim_at (h : Ready g s fore t b cols) :
    (s.array.shape[g.lonDim]?).map Dimension.cSize = some (cols.length : Int) := by
  obtain ⟨lat, lon, hPlaced, hLat, hLon⟩ := h.placed
  rw [← h.lonDim, hPlaced.lon_at, Option.map_some, hLon]

variable [Inhabited α]

/-- Without an index in the other dimensions the loop's block size is a division by zero. -/
theorem flipLatitude_empty (h : Ready g s fore t b cols) (hSense : g.geo.latitudeSense = .inverted)
    (hNone : tuples (fore.map indices) = []) : ∃ e s', flipLatitude s = .error e s' := by
  obtain ⟨lat, lon, hPlaced, -⟩ := h.placed
  rw [flipLatitude, get_bind, if_pos (h.sense.trans hSense), modify_bind]
  dsimp only
  rw [flipLatitudeWithinArray, get_bind]
  dsimp only
  have hCount : (if s.geo.arrayData.isNone = true then s.array.read else s.array).countSizeExceptLatitudeAndLongitude =
      0 := by
    have hSame : (if s.geo.arrayData.isNone = true then s.array.read else s.array).countSizeExceptLatitudeAndLongitude =
        s.array.countSizeExceptLatitudeAndLongitude := by split <;> rfl
    rw [hSame, hPlaced.count, hNone]
    rfl
  rw [if_pos hCount]
  exact ⟨_, _, rfl⟩

theorem flipLatitude_ok (h : Ready g s fore t b cols) (hSense : g.geo.latitudeSense = .inverted)
    (hSome : tuples (fore.map indices) ≠ []) :
    ∃ s', flipLatitude s = .ok () s' ∧
      s'.geo = { s.geo with
        lat := transposeVector s.geo.lat t (b - t + 1)
        arrayData := some (turned (tuples (fore.map indices))
          (blockOf g.geo.longitudeRightmost (List.range' t (b - t + 1)) cols g.array.cell) (b - t + 1) cols.length) } ∧
      s'.array.shape = s.array.shape ∧ s'.latitude = s.latitude ∧ s'.longitude = s.longitude := by
  obtain ⟨lat, lon, hPlaced, -⟩ := h.placed
  have hData : s.geo.arrayData.getD (if s.geo.arrayData.isNone = true then s.array.read else s.array).buf =
      (tuples (fore.map indices)).flatMap
        (blockOf g.geo.longitudeRightmost (List.range' t (b - t + 1)) cols g.array.cell) := by
    rw [← h.blocks]
    cases s.geo.arrayData <;> rfl
  have hCount : (if s.geo.arrayData.isNone = true then s.array.read else s.array).countSizeExceptLatitudeAndLongitude =
      (tuples (fore.map indices)).length := by
    rw [← hPlaced.count]
    split <;> rfl
  have hShape : (if s.geo.arrayData.isNone = true then s.array.read else s.array).shape = s.array.shape := by
    split <;> rfl
  have hLength (o : List Nat) (_ : o ∈ tuples (fore.map indices)) :
      (blockOf g.geo.longitudeRightmost (List.range' t (b - t + 1)) cols g.array.cell o).length =
        (b - t + 1) * cols.length := by
    rw [length_blockOf, List.length_range']
  rw [flipLatitude, get_bind, if_pos (h.sense.trans hSense), modify_bind]
  dsimp only
  rw [flipLatitudeWithinArray, get_bind]
  dsimp only
  generalize (if s.geo.arrayData.isNone = true then s.array.read else s.array) = array at hData hCount hShape ⊢
  rw [hData, hCount, if_neg fun hZero => hSome (List.length_eq_zero_iff.mp hZero), h.top, h.bottom, h.columns,
    Call.ofExcept_bind_of_ok (flipBlocks_ok hLength hSome)]
  exact ⟨_, rfl, rfl, hShape, rfl, rfl⟩

end

end Libdap.Functions
