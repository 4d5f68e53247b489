import Libdap.Functions.BoundingBox
import Libdap.Functions.GridSelection
import Libdap.Functions.JoinedRows

/-! # The steps of a bounding box on a Grid

What `set_bounding_box` leaves to `apply_constraint_to_data`, and what each step of the latter does to the Grid.
-/

namespace Libdap.Functions
open Core
open Dap2 (Dimension)
set_option autoImplicit false

variable {α : Type} {g : GridGeoConstraint α}

/-- The longitude modulo 360. -/
def meridian (x : Rat) : Rat := x - 360 * (x / 360).floor

/-! ## What the bounding box leaves -/

section
variable {doubleToString : Rat → String} {geo geo' : GeoConstraint α} {top left bottom right : Rat}

/-- Of the indices and the maps under a box that was accepted. -/
structure Boxed (geo geo' : GeoConstraint α) : Prop where
  lat : geo'.lat = geo.lat
  lon : geo'.lon.map meridian = geo.lon.map meridian
  top : geo'.latitudeIndexTop < geo.lat.length
  bottom : geo'.latitudeIndexBottom < geo.lat.length
  left : geo'.longitudeIndexLeft < geo.lon.length
  right : geo'.longitudeIndexRight < geo.lon.length
  arrayData : geo'.arrayData = geo.arrayData
  rightmost : geo'.longitudeRightmost = geo.longitudeRightmost
  set : geo'.boundingBoxSet = true

theorem meridian_add (x : Rat) (k : Int) : meridian (x + 360 * k) = meridian x := by
  have hDiv : (x + 360 * k) / 360 = x / 360 + k := by ring
  rw [meridian, meridian, hDiv, Rat.floor_add_intCast]
  push_cast
  ring

theorem meridian_toPosNotation (x : Rat) : meridian (toPosNotation x) = meridian x := by
  rw [toPosNotation]
  split
  · have hTurn := meridian_add x 1
    push_cast at hTurn
    rwa [mul_one] at hTurn
  · rfl

theorem meridian_toNegPosNotation (x : Rat) : meridian (toNegPosNotation x) = meridian x := by
  rw [toNegPosNotation]
  split
  · have hTurn := meridian_add x (-1)
    push_cast at hTurn
    rwa [mul_neg, mul_one, ← sub_eq_add_neg] at hTurn
  · rfl

theorem scanAround_lt {ε : Type} {p : Nat → Except ε Bool} {next : Nat → Nat} {start n len i j : Nat} {fault : ε}
    (hNext : ∀ k, k < n → next k < n) (hi : i < n) (h : scanAround p next start fault len i = .ok j) : j < n := by
  induction len generalizing i with
  | zero => cases h
  | succ len ih =>
    rw [scanAround] at h
    obtain ⟨held, -, h⟩ := bind_eq_ok h
    split at h
    · split at h
      · cases h
      · exact ih (hNext i hi) h
    · cases h
      exact hi

theorem element_lt {β : Type} {xs : List β} {i : Nat} {x : β} (h : element xs i = .ok x) : i < xs.length := by
  by_contra hNot
  rw [element, List.getElem?_eq_none (Nat.not_lt.mp hNot)] at h
  cases h

theorem lonOrigin_lt {lon : List Rat} {n i start o : Nat} {smallest : Rat} (hStart : start < lon.length)
    (h : lonOrigin lon n i start smallest = .ok o) : o < lon.length := by
  induction n generalizing i start smallest with
  | zero =>
    cases h
    exact hStart
  | succ n ih =>
    rw [lonOrigin] at h
    obtain ⟨x, hElement, h⟩ := bind_eq_ok h
    dsimp only at h
    split at h
    · exact ih (element_lt hElement) h
    · exact ih hStart h

theorem findLongitudeIndeces_lt {lon : List Rat} {left right : Rat} {l r : Nat}
    (h : findLongitudeIndeces doubleToString lon left right = .ok (l, r)) : l < lon.length ∧ r < lon.length := by
  rw [findLongitudeIndeces] at h
  obtain ⟨first, hFirst, h⟩ := bind_eq_ok h
  obtain ⟨o, hOrigin, h⟩ := bind_eq_ok h
  obtain ⟨i, hUp, h⟩ := bind_eq_ok h
  obtain ⟨x, -, h⟩ := bind_eq_ok h
  obtain ⟨j, hDown, h⟩ := bind_eq_ok h
  obtain ⟨y, -, h⟩ := bind_eq_ok h
  cases h
  have hPos := element_lt hFirst
  have hi : i < lon.length :=
    scanAround_lt (fun k _ => Nat.mod_lt _ hPos) (lonOrigin_lt hPos hOrigin) hUp
  have hj : j < lon.length := by
    refine scanAround_lt (fun k hk => ?_) (Nat.mod_lt _ hPos) hDown
    split <;> omega
  constructor
  · have hLe := (before_or_at (c := fmod x 360 = fmod left 360) (i := i) rfl).1
    omega
  · exact (behind_or_at (c := fmod y 360 = fmod right 360) hj rfl).2.2.1

theorem place_boxed {sense : LatitudeSense} (hLat : geo.lat ≠ [])
    (h : placeBoundingBox doubleToString sense top left bottom right geo = .ok () geo') : Boxed geo geo' := by
  rw [placeBoundingBox, get_bind] at h
  obtain ⟨valid, s, hValid, h⟩ := Call.bind_ok.mp h
  obtain ⟨-, rfl⟩ := Call.ofExcept_ok.mp hValid
  split at h
  · obtain ⟨e, s, -, h⟩ := Call.bind_ok.mp h
    obtain ⟨_, s, hThrow, -⟩ := Call.bind_ok.mp h
    cases hThrow
  · obtain ⟨t, b, hPlace, ht, hb⟩ := findLatitudeIndeces_total hLat top bottom sense
    rw [Call.ofExcept_bind_of_ok hPlace] at h
    dsimp only at h
    rw [modify_bind] at h
    obtain ⟨⟨l, r⟩, s, hCall, h⟩ := Call.bind_ok.mp h
    obtain ⟨hFind, hSame⟩ := Call.ofExcept_ok.mp hCall
    rw [hSame] at h
    cases h
    obtain ⟨hl, hr⟩ := findLongitudeIndeces_lt hFind
    exact ⟨rfl, rfl, ht, hb, hl, hr, rfl, rfl, rfl⟩

theorem setBoundingBox_boxed (h : setBoundingBox doubleToString top left bottom right geo = .ok () geo') :
    Boxed geo geo' := by
  rw [setBoundingBox, get_bind] at h
  dsimp only at h
  split at h
  · cases h
  rw [get_bind] at h
  obtain ⟨sense, s, hCall, h⟩ := Call.bind_ok.mp h
  obtain ⟨hSense, hSame⟩ := Call.ofExcept_ok.mp hCall
  rw [hSame, modify_bind, get_bind] at h
  obtain ⟨west, s', hWest, h⟩ := Call.bind_ok.mp h
  rw [(Call.ofExcept_ok.mp hWest).2, get_bind, get_bind] at h
  obtain ⟨east, s'', hEast, h⟩ := Call.bind_ok.mp h
  rw [(Call.ofExcept_ok.mp hEast).2] at h
  have hLat : geo.lat ≠ [] := by
    intro hNil
    rw [hNil] at hSense
    cases hSense
  split at h
  · rw [modify_bind] at h
    have hBoxed := place_boxed (by exact hLat) h
    have hLength : (transformLongitudeToPosNotation geo.lon).length = geo.lon.length := List.length_map _
    refine { hBoxed with lon := ?_, left := hLength ▸ hBoxed.left, right := hLength ▸ hBoxed.right }
    rw [hBoxed.lon]
    change (geo.lon.map toPosNotation).map meridian = geo.lon.map meridian
    rw [List.map_map]
    exact List.map_congr_left fun x _ => meridian_toPosNotation x
  · have hBoxed := place_boxed (by exact hLat) h
    exact { hBoxed with }

end

/-! ## The steps of the constraint -/

theorem indices_inside (d : Dimension) {first last : Nat} (h : first ≤ last) :
    indices (inside d first last) = List.range' first (last - first + 1) := by
  have hCount : ((last : Int) - first + 1).toNat = last - first + 1 := by omega
  have hStart : ((first : Int)).toNat = first := Int.toNat_natCast first
  rw [indices, List.range'_eq_map_range]
  change (List.range ((last : Int) - first + 1).toNat).map (fun k => ((first : Int)).toNat + (1 : Int).toNat * k) = _
  rw [hCount, hStart]
  congr 1
  funext k
  exact congrArg (first + ·) (Nat.one_mul k)

section
variable {n first last i : Nat} {d : Dimension}

theorem dim_constrained (hSize : d.size = n) (hFits : (n : Int) ≤ INT_MAX) (hOrder : first ≤ last) (hLast : last < n) :
    d.addConstraint first 1 last = .ok (inside d first last) :=
  addConstraint_inside (by rw [hSize]; exact hFits) (by omega) (by omega) (by omega)

theorem array_constrained {a : GeoArray α} (hAt : a.shape[i]? = some d) (hSize : d.size = n)
    (hFits : (n : Int) ≤ INT_MAX)
    (hOrder : first ≤ last) (hLast : last < n) :
    a.addConstraint i first last = .ok { a with shape := a.shape.set i (inside d first last) } := by
  rw [GeoArray.addConstraint, hAt]
  dsimp only
  rw [dim_constrained hSize hFits hOrder hLast]
  rfl

theorem map_constrained {m : GeoMap} (hSize : m.dim.size = n) (hFits : (n : Int) ≤ INT_MAX) (hOrder : first ≤ last)
    (hLast : last < n) : m.addConstraint first last = .ok { m with dim := inside m.dim first last } := by
  rw [GeoMap.addConstraint, dim_constrained hSize hFits hOrder hLast]
  rfl

theorem constrainArray_ok (hAt : g.array.shape[i]? = some d) (hSize : d.size = n) (hFits : (n : Int) ≤ INT_MAX)
    (hOrder : first ≤ last) (hLast : last < n) :
    constrainArray i first last g =
      .ok () { g with array := { g.array with shape := g.array.shape.set i (inside d first last) } } := by
  rw [constrainArray, get_bind, Call.ofExcept_bind_of_ok (array_constrained hAt hSize hFits hOrder hLast)]
  rfl

end

/-- The indices with the northern one first. -/
def northern (geo : GeoConstraint α) : Nat × Nat :=
  if geo.latitudeSense = .inverted then (geo.latitudeIndexBottom, geo.latitudeIndexTop)
  else (geo.latitudeIndexTop, geo.latitudeIndexBottom)

theorem constrainLatitude_reversed {t b : Nat} (hIndices : northern g.geo = (t, b)) (hOrder : b < t) :
    ∃ e g', constrainLatitude g = .error e g' := by
  rw [northern] at hIndices
  rw [constrainLatitude, get_bind]
  split at hIndices
  · rename_i hSense
    cases hIndices
    rw [if_pos hSense, modify_bind]
    dsimp only
    rw [get_bind]
    dsimp only
    rw [if_pos hOrder]
    exact ⟨_, _, rfl⟩
  · rename_i hSense
    cases hIndices
    rw [if_neg hSense]
    dsimp only
    rw [get_bind]
    rw [if_pos hOrder]
    exact ⟨_, _, rfl⟩

theorem constrainLatitude_ok {t b n : Nat} {d : Dimension} (hIndices : northern g.geo = (t, b)) (hOrder : t ≤ b)
    (hb : b < n)
    (hFits : (n : Int) ≤ INT_MAX) (hMap : g.latitude.dim.size = n) (hAt : g.array.shape[g.latDim]? = some d)
    (hSize : d.size = n) :
    constrainLatitude g = .ok () { g with
      geo := { g.geo with latitudeIndexTop := t, latitudeIndexBottom := b }
      latitude := { g.latitude with dim := inside g.latitude.dim t b }
      array := { g.array with shape := g.array.shape.set g.latDim (inside d t b) } } := by
  rw [northern] at hIndices
  rw [constrainLatitude, get_bind]
  split at hIndices
  · rename_i hSense
    cases hIndices
    rw [if_pos hSense, modify_bind]
    dsimp only
    rw [get_bind]
    dsimp only
    rw [if_neg (Nat.not_lt.mpr hOrder), Call.ofExcept_bind_of_ok (map_constrained hMap hFits hOrder hb), modify_bind]
    exact constrainArray_ok hAt hSize hFits hOrder hb
  · rename_i hSense
    cases hIndices
    rw [if_neg hSense]
    dsimp only
    rw [get_bind]
    rw [if_neg (Nat.not_lt.mpr hOrder), Call.ofExcept_bind_of_ok (map_constrained hMap hFits hOrder hb), modify_bind]
    exact constrainArray_ok hAt hSize hFits hOrder hb

/-! ## Longitudes over the end of the map -/

section
variable {fore : List Dimension} {mid d e : Dimension} {a : GeoArray α}

theorem length_indices : (indices d).length = d.cSize.toNat := by
  rw [indices, List.length_map, List.length_range]

theorem read_layout (hShape : a.shape = fore ++ [mid, d]) :
    a.read.buf = layout (fore.map indices) (indices mid) (indices d) a.cell := by
  rw [GeoArray.read, hShape, List.map_append]
  rfl

theorem set_last : (fore ++ [mid, d]).set (fore.length + 1) e = fore ++ [mid, e] := by
  rw [List.set_append_right _ _ (by omega), Nat.add_sub_cancel_left]
  rfl

theorem set_mid : (fore ++ [mid, d]).set fore.length e = fore ++ [e, d] := by
  rw [List.set_append_right _ _ (Nat.le_refl _), Nat.sub_self]
  rfl

theorem constrainedSize_eq {shape : List Dimension} :
    GeoArray.constrainedSize shape = (tuples (shape.map indices)).length := by
  rw [length_tuples, GeoArray.constrainedSize, List.map_map]
  congr 2
  funext d
  exact length_indices.symm

theorem count_rows (hShape : a.shape = fore ++ [mid, d]) :
    a.countDimensionsExceptLongitude = (tuples (fore.map indices ++ [indices mid])).length := by
  rw [GeoArray.countDimensionsExceptLongitude, hShape, List.dropLast_append_cons, constrainedSize_eq, List.map_append]
  rfl

theorem count_others (hShape : a.shape = fore ++ [mid, d]) :
    a.countSizeExceptLatitudeAndLongitude = (tuples (fore.map indices)).length := by
  have hFore : a.shape.dropLast.dropLast = fore := by
    rw [hShape, List.dropLast_append_cons]
    exact List.dropLast_concat
  rw [GeoArray.countSizeExceptLatitudeAndLongitude, hFore, hShape, List.length_append]
  split
  · have hNone : fore = [] := List.length_eq_zero_iff.mp (by simp at *; omega)
    rw [hNone]
    rfl
  · exact constrainedSize_eq

/-- A constraint on the dimension of longitude where that is the last. -/
theorem constrainArray_last {n first last : Nat} (hShape : g.array.shape = fore ++ [mid, d])
    (hPlace : g.lonDim = fore.length + 1) (hSize : d.size = n) (hFits : (n : Int) ≤ INT_MAX) (hOrder : first ≤ last)
    (hLast : last < n) :
    constrainArray g.lonDim first last g =
      .ok () { g with array := { g.array with shape := fore ++ [mid, inside d first last] } } := by
  rw [constrainArray_ok (by rw [hShape, hPlace]; simp) hSize hFits hOrder hLast, hShape, hPlace, set_last]

variable [Inhabited α]

theorem joinLongitudes_inside (h : g.geo.longitudeIndexLeft ≤ g.geo.longitudeIndexRight) :
    joinLongitudes g = .ok () g := by
  rw [joinLongitudes, get_bind, if_neg (Nat.not_lt.mpr h)]
  rfl

theorem reorder_refused (hRight : g.geo.longitudeRightmost = false) :
    ∃ e, reorderDataLongitudeAxis g = .error e g := by
  rw [reorderDataLongitudeAxis, get_bind, hRight]
  exact ⟨_, rfl⟩

theorem joinLongitudes_refused (h : g.geo.longitudeIndexRight < g.geo.longitudeIndexLeft)
    (hRight : g.geo.longitudeRightmost = false) : ∃ e g', joinLongitudes g = .error e g' := by
  rw [joinLongitudes, get_bind, if_pos h, modify_bind]
  dsimp only
  obtain ⟨e, hRefused⟩ := reorder_refused (g := { g with
    geo := { g.geo with lon := swapVectorEnds g.geo.lon g.geo.longitudeIndexLeft } }) hRight
  rw [Call.bind_of_error hRefused]
  exact ⟨_, _, rfl⟩

/-- The two parts of the rows are read and joined. -/
theorem reorder_ok {n : Nat} (hRight : g.geo.longitudeRightmost = true) (hn : g.geo.lon.length = n)
    (hFits : (n : Int) ≤ INT_MAX) (hSeam : g.geo.longitudeIndexRight < g.geo.longitudeIndexLeft)
    (hLeft : g.geo.longitudeIndexLeft < n) (hShape : g.array.shape = fore ++ [mid, d])
    (hPlace : g.lonDim = fore.length + 1) (hSize : d.size = n) :
    ∃ array, reorderDataLongitudeAxis g = .ok () { g with
        array := array
        geo := { g.geo with arrayData := some (layout (fore.map indices) (indices mid)
          (List.range' g.geo.longitudeIndexLeft (n - g.geo.longitudeIndexLeft) ++
            List.range' 0 (g.geo.longitudeIndexRight + 1)) g.array.cell) } } ∧
      array.cell = g.array.cell ∧ array.shape = fore ++ [mid, inside d 0 g.geo.longitudeIndexRight] := by
  have hLast : (n : Int) - 1 = ((n - 1 : Nat) : Int) := by omega
  have hFirst := constrainArray_last (g := g) hShape hPlace hSize hFits (by omega : g.geo.longitudeIndexLeft ≤ n - 1)
    (by omega)
  rw [reorderDataLongitudeAxis, get_bind, if_neg (by rw [hRight]; decide)]
  dsimp only
  rw [hn, hLast, Call.bind_of_ok hFirst, get_bind]
  dsimp only
  have hSecond := constrainArray_last (g := { g with
      array := { g.array with shape := fore ++ [mid, inside d g.geo.longitudeIndexLeft (n - 1 : Nat)] } })
    (d := inside d g.geo.longitudeIndexLeft (n - 1 : Nat)) rfl hPlace hSize hFits
    (Nat.zero_le g.geo.longitudeIndexRight)
    (by omega)
  rw [Nat.cast_zero] at hSecond
  dsimp only at hSecond
  rw [Call.bind_of_ok hSecond, get_bind]
  dsimp only
  have hCount : n - 1 - g.geo.longitudeIndexLeft + 1 = n - g.geo.longitudeIndexLeft := by omega
  have hParts {first last : Nat} {e : Dimension} (h : first ≤ last) :
      (GeoArray.read { g.array with shape := fore ++ [mid, inside e first last] }).buf =
        layout (fore.map indices) (indices mid) (List.range' first (last - first + 1)) g.array.cell := by
    rw [read_layout rfl, indices_inside e h]
  have hJoined := joinRows_ok (fore.map indices) (indices mid)
    (List.range' g.geo.longitudeIndexLeft (n - g.geo.longitudeIndexLeft))
    (List.range' 0 (g.geo.longitudeIndexRight + 1)) g.array.cell
  rw [List.length_range', List.length_range'] at hJoined
  have hLeftPart := hParts (e := d) (by omega : g.geo.longitudeIndexLeft ≤ n - 1)
  have hRightPart := hParts (e := inside d g.geo.longitudeIndexLeft (n - 1 : Nat))
      (Nat.zero_le g.geo.longitudeIndexRight)
  rw [hCount] at hLeftPart
  rw [Nat.sub_zero, Nat.cast_zero] at hRightPart
  rw [hLeftPart, hRightPart, count_rows rfl, Call.ofExcept_bind_of_ok hJoined]
  exact ⟨_, rfl, rfl, rfl⟩

theorem joinLongitudes_seam {n : Nat} (hRight : g.geo.longitudeRightmost = true) (hn : g.geo.lon.length = n)
    (hFits : (n : Int) ≤ INT_MAX) (hSeam : g.geo.longitudeIndexRight < g.geo.longitudeIndexLeft)
    (hLeft : g.geo.longitudeIndexLeft < n) (hShape : g.array.shape = fore ++ [mid, d])
    (hPlace : g.lonDim = fore.length + 1) (hSize : d.size = n) :
    ∃ array, joinLongitudes g = .ok () { g with
        array := array
        geo := { g.geo with
          lon := swapVectorEnds g.geo.lon g.geo.longitudeIndexLeft
          longitudeIndexLeft := 0
          longitudeIndexRight := n - g.geo.longitudeIndexLeft + g.geo.longitudeIndexRight
          arrayData := some (layout (fore.map indices) (indices mid)
            (List.range' g.geo.longitudeIndexLeft (n - g.geo.longitudeIndexLeft) ++
              List.range' 0 (g.geo.longitudeIndexRight + 1)) g.array.cell) } } ∧
      array.cell = g.array.cell ∧ array.shape = fore ++ [mid, inside d 0 g.geo.longitudeIndexRight] := by
  have hLength : (swapVectorEnds g.geo.lon g.geo.longitudeIndexLeft).length = n := by
    rw [swapVectorEnds, List.length_append, List.length_drop, List.length_take, hn]
    omega
  obtain ⟨array, hRun, hCell, hShape'⟩ := reorder_ok (g := { g with
      geo := { g.geo with lon := swapVectorEnds g.geo.lon g.geo.longitudeIndexLeft } })
    hRight hLength hFits hSeam hLeft hShape hPlace hSize
  rw [joinLongitudes, get_bind, if_pos hSeam, modify_bind]
  dsimp only
  rw [Call.bind_of_ok hRun]
  refine ⟨array, ?_, hCell, hShape'⟩
  change EStateM.Result.ok () _ = _
  dsimp only
  rw [hLength]

end

/-- The map and the dimension `d` have the range of longitudes, and the longitudes may be in the other notation. -/
structure LongitudeConstrained (g s : GridGeoConstraint α) (d : Dimension) : Prop where
  geo : ∃ lon, s.geo = { g.geo with lon := lon } ∧ lon.map meridian = g.geo.lon.map meridian
  longitude : s.longitude.dim = inside g.longitude.dim g.geo.longitudeIndexLeft g.geo.longitudeIndexRight
  latitude : s.latitude = g.latitude
  array : s.array = { g.array with
    shape := g.array.shape.set g.lonDim (inside d g.geo.longitudeIndexLeft g.geo.longitudeIndexRight) }
  latDim : s.latDim = g.latDim
  lonDim : s.lonDim = g.lonDim

theorem constrainLongitude_ok {n : Nat} {d : Dimension} (hOrder : g.geo.longitudeIndexLeft ≤ g.geo.longitudeIndexRight)
    (hIn : g.geo.longitudeIndexRight < n) (hFits : (n : Int) ≤ INT_MAX) (hMap : g.longitude.dim.size = n)
    (hAt : g.array.shape[g.lonDim]? = some d) (hSize : d.size = n) :
    ∃ s, constrainLongitude g = .ok () s ∧ LongitudeConstrained g s d := by
  rw [constrainLongitude, get_bind]
  split
  · rw [modify_bind]
    dsimp only
    rw [get_bind]
    dsimp only
    rw [Call.ofExcept_bind_of_ok (map_constrained hMap hFits hOrder hIn), modify_bind]
    refine ⟨_, constrainArray_ok hAt hSize hFits hOrder hIn, ⟨⟨_, rfl, ?_⟩, rfl, rfl, rfl, rfl, rfl⟩⟩
    rw [transformLongitudeToNegPosNotation, List.map_map]
    exact List.map_congr_left fun x _ => meridian_toNegPosNotation x
  · dsimp only
    rw [get_bind, Call.ofExcept_bind_of_ok (map_constrained hMap hFits hOrder hIn), modify_bind]
    exact ⟨_, constrainArray_ok hAt hSize hFits hOrder hIn, ⟨⟨_, rfl, rfl⟩, rfl, rfl, rfl, rfl, rfl⟩⟩

end Libdap.Functions
