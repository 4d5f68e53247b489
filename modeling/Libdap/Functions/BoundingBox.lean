import Mathlib.Tactic.Choose
import Libdap.Functions.Longitudes

/-! # Bounding boxes and what they select

Where the range of longitude indices that a bounding box is given holds every longitude in the box, and where it does
not.
-/

namespace Libdap.Functions
open Core
set_option autoImplicit false

variable {lon : List Rat} {left right : Rat}

/-! ## Placing the box -/

section
variable {α : Type} {g : GeoConstraint α} {sense : LatitudeSense} (doubleToString : Rat → String)
  (top left bottom right : Rat)

/-- Longitudes and edges are from 0 on when the box is placed. -/
theorem setBoundingBox_placed {west east : Rat} (hFresh : g.boundingBoxSet = false)
    (hSense : categorizeLatitude g.lat = .ok sense) (hWest : element g.lon 0 = .ok west)
    (hEast : element g.lon (g.lon.length - 1) = .ok east) (hRest : 0 ≤ west → 0 ≤ east → ∀ x ∈ g.lon, 0 ≤ x) :
    ∃ g₀ : GeoConstraint α, g₀.lat = g.lat ∧ g₀.lon = g.lon.map toPosNotation ∧
      setBoundingBox doubleToString top left bottom right g =
        placeBoundingBox doubleToString sense top (toPosNotation left) bottom (toPosNotation right) g₀ := by
  have hBox : (if categorizeNotation left right = .negPos then transformConstraintToPosNotation left right
      else (left, right)) = (toPosNotation left, toPosNotation right) := by
    rw [categorizeNotation]
    by_cases hNeg : left < 0 ∨ right < 0
    · rw [if_pos hNeg, if_pos rfl, transformConstraintToPosNotation]
    · obtain ⟨hLeft, hRight⟩ := not_or.mp hNeg
      rw [if_neg hNeg, if_neg (by decide), toPosNotation_of_nonneg (not_lt.mp hLeft),
        toPosNotation_of_nonneg (not_lt.mp hRight)]
  have hMap (hPos : categorizeNotation west east ≠ .negPos) : g.lon.map toPosNotation = g.lon := by
    have hNeg : ¬ (west < 0 ∨ east < 0) := by
      intro hNot
      rw [categorizeNotation, if_pos hNot] at hPos
      exact hPos rfl
    obtain ⟨hWest, hEast⟩ := not_or.mp hNeg
    have hAll := hRest (not_lt.mp hWest) (not_lt.mp hEast)
    calc g.lon.map toPosNotation = g.lon.map id :=
        List.map_congr_left fun x hx => toPosNotation_of_nonneg (hAll x hx)
      _ = g.lon := List.map_id g.lon
  rw [setBoundingBox, get_bind]
  dsimp only
  rw [if_neg (by rw [hFresh]; decide), get_bind, Call.ofExcept_bind_of_ok hSense, hBox, modify_bind, get_bind]
  rw [Call.ofExcept_bind_of_ok hWest, get_bind, get_bind, Call.ofExcept_bind_of_ok hEast]
  split
  · rw [modify_bind]
    exact ⟨{ g with
      lon := transformLongitudeToPosNotation g.lon
      latitudeSense := sense
      longitudeNotation := categorizeNotation left right }, rfl, rfl, rfl⟩
  · rename_i hPos
    exact ⟨{ g with latitudeSense := sense, longitudeNotation := categorizeNotation left right }, rfl,
      (hMap hPos).symm, rfl⟩

/-- Both edges are off the same end of the map. -/
def OffLongitudes (lon : List Rat) (left right : Rat) : Prop :=
  (∀ x, lon.head? = some x → left < x ∧ right < x) ∨ ∀ x, lon.getLast? = some x → x < left ∧ x < right

/-- The band is north or south of both ends of the map. -/
def OffLatitudes (lat : List Rat) (top bottom : Rat) : Prop :=
  (∀ x, lat.head? = some x ∨ lat.getLast? = some x → top < x ∧ bottom < x) ∨
    ∀ x, lat.head? = some x ∨ lat.getLast? = some x → x < top ∧ x < bottom

theorem offLatitudes_normal {top bottom first last : Rat} (h : last ≤ first) :
    (top > first ∧ bottom > first) ∨ (top < last ∧ bottom < last) ↔
      ((top < first ∧ bottom < first) ∧ top < last ∧ bottom < last) ∨
        (first < top ∧ first < bottom) ∧ last < top ∧ last < bottom := by
  constructor
  · rintro (⟨hTop, hBottom⟩ | ⟨hTop, hBottom⟩)
    · exact .inr ⟨⟨hTop, hBottom⟩, h.trans_lt hTop, h.trans_lt hBottom⟩
    · exact .inl ⟨⟨hTop.trans_le h, hBottom.trans_le h⟩, hTop, hBottom⟩
  · rintro (⟨-, hLow⟩ | ⟨hHigh, -⟩)
    · exact .inr hLow
    · exact .inl hHigh

theorem offLatitudes_inverted {top bottom first last : Rat} (h : first < last) :
    (top < first ∧ bottom < first) ∨ (top > last ∧ bottom > last) ↔
      ((top < first ∧ bottom < first) ∧ top < last ∧ bottom < last) ∨
        (first < top ∧ first < bottom) ∧ last < top ∧ last < bottom := by
  constructor
  · rintro (⟨hTop, hBottom⟩ | ⟨hTop, hBottom⟩)
    · exact .inl ⟨⟨hTop, hBottom⟩, hTop.trans h, hBottom.trans h⟩
    · exact .inr ⟨⟨h.trans hTop, h.trans hBottom⟩, hTop, hBottom⟩
  · rintro (⟨hLow, -⟩ | ⟨-, hHigh⟩)
    · exact .inl hLow
    · exact .inr hHigh

theorem boundingBoxValid {lat : List Rat} (hLat : lat ≠ []) (hLon : lon ≠ [])
    (hSense : categorizeLatitude lat = .ok sense) :
    ∃ valid, isBoundingBoxValid lat lon sense left top right bottom = .ok valid ∧
      (valid = true ↔ ¬ OffLongitudes lon left right ∧ ¬ OffLatitudes lat top bottom) := by
  have hFirst := List.head?_eq_some_head hLat
  have hLast := List.getLast?_eq_some_getLast hLat
  have hWest := List.head?_eq_some_head hLon
  have hEast := List.getLast?_eq_some_getLast hLon
  rw [OffLongitudes, OffLatitudes, hWest, hEast, hFirst, hLast]
  generalize lat.head hLat = first at *
  generalize lat.getLast hLat = last at *
  generalize lon.head hLon = west at *
  generalize lon.getLast hLon = east at *
  have hEnds (P : Rat → Prop) : (∀ x, some first = some x ∨ some last = some x → P x) ↔ P first ∧ P last := by
    simp [or_imp, forall_and]
  rw [categorizeLatitude, element_head hFirst, ok_bind, element_last hLast, ok_bind] at hSense
  rw [isBoundingBoxValid, element_head hWest, ok_bind, element_last hEast, ok_bind, hEnds, hEnds]
  simp only [Option.some.injEq, forall_eq']
  by_cases hOff : (left < west ∧ right < west) ∨ (left > east ∧ right > east)
  · rw [if_pos hOff]
    refine ⟨false, rfl, ?_⟩
    constructor
    · intro hNot
      cases hNot
    · rintro ⟨hNot, -⟩
      exact absurd hOff hNot
  · rw [if_neg hOff, element_head hFirst, ok_bind, element_last hLast, ok_bind]
    by_cases hOrder : first ≥ last
    · rw [if_pos hOrder] at hSense
      cases hSense
      rw [if_pos rfl]
      refine ⟨_, rfl, ?_⟩
      rw [decide_eq_true_iff, offLatitudes_normal hOrder]
      exact (and_iff_right hOff).symm
    · rw [if_neg hOrder] at hSense
      cases hSense
      rw [if_neg (by decide)]
      refine ⟨_, rfl, ?_⟩
      rw [decide_eq_true_iff, offLatitudes_inverted (not_le.mp hOrder)]
      exact (and_iff_right hOff).symm

theorem categorizeLatitude_total {lat : List Rat} (hLat : lat ≠ []) : ∃ sense, categorizeLatitude lat = .ok sense := by
  rw [categorizeLatitude, element_head (List.head?_eq_some_head hLat), ok_bind,
    element_last (List.getLast?_eq_some_getLast hLat), ok_bind]
  exact ⟨_, rfl⟩

theorem findLatitudeIndeces_total {κ : Type} [LinearOrder κ] {lat : List κ} (hLat : lat ≠ []) (top bottom : κ)
    (sense : LatitudeSense) :
    ∃ t b, findLatitudeIndeces lat top bottom sense = .ok (t, b) ∧ t < lat.length ∧ b < lat.length := by
  have hPos := List.length_pos_iff.mpr hLat
  obtain ⟨f, hElement, -⟩ := elements lat top
  rw [findLatitudeIndeces]
  by_cases hSense : sense = .normal
  · obtain ⟨i, hUp, -, hi, -⟩ :=
      scanUp_ok (p := fun i => do pure (decide (top < (← element lat i)))) (q := fun i => decide (top < f i)) (i := 0)
        (n := lat.length - 1) fun k _ hk => by rw [hElement k (by omega)]; rfl
    obtain ⟨j, hDown, hj, -⟩ :=
      scanDown_ok (p := fun j => do pure (decide (bottom > (← element lat j)))) (q := fun j => decide (bottom > f j))
        (i := lat.length - 1) fun k _ hk => by rw [hElement k (by omega)]; rfl
    rw [if_pos hSense, hUp, ok_bind, hDown, ok_bind, hElement i (by omega), ok_bind, hElement j (by omega), ok_bind]
    obtain ⟨hFirst, -⟩ := before_or_at (c := f i = top) (i := i) rfl
    obtain ⟨-, -, hLast, -⟩ := behind_or_at (c := f j = bottom) (j := j) (n := lat.length) (by omega) rfl
    exact ⟨_, _, rfl, by omega, hLast⟩
  · obtain ⟨i, hDown, hi, -⟩ :=
      scanDown_ok (p := fun i => do pure (decide ((← element lat i) > top))) (q := fun i => decide (f i > top))
        (i := lat.length - 1) fun k _ hk => by rw [hElement k (by omega)]; rfl
    obtain ⟨j, hUp, -, hj, -⟩ :=
      scanUp_ok (p := fun j => do pure (decide ((← element lat j) < bottom))) (q := fun j => decide (f j < bottom))
        (i := 0) (n := lat.length - 1) fun k _ hk => by rw [hElement k (by omega)]; rfl
    rw [if_neg hSense, hDown, ok_bind, hUp, ok_bind, hElement i (by omega), ok_bind, hElement j (by omega), ok_bind]
    obtain ⟨hFirst, -⟩ := before_or_at (c := f j = bottom) (i := j) rfl
    obtain ⟨-, -, hLast, -⟩ := behind_or_at (c := f i = top) (j := i) (n := lat.length) (by omega) rfl
    exact ⟨_, _, rfl, hLast, by omega⟩

theorem set_of_no_latitudes (hFresh : g.boundingBoxSet = false) (hLat : g.lat = []) :
    ∃ e g', setBoundingBox doubleToString top left bottom right g = .error e g' := by
  rw [setBoundingBox, get_bind]
  dsimp only
  rw [if_neg (by rw [hFresh]; decide), get_bind, hLat]
  exact ⟨_, _, rfl⟩

theorem place_off (hLat : g.lat ≠ []) (hLon : g.lon ≠ []) (hSense : categorizeLatitude g.lat = .ok sense)
    (hOff : OffLongitudes g.lon left right ∨ OffLatitudes g.lat top bottom) :
    ∃ e, placeBoundingBox doubleToString sense top left bottom right g = .error e g := by
  obtain ⟨valid, hRun, hValid⟩ := boundingBoxValid top left bottom right hLat hLon hSense
  have hNot : valid = false := by
    rw [← Bool.not_eq_true, hValid]
    rintro ⟨hLongitudes, hLatitudes⟩
    exact hOff.elim hLongitudes hLatitudes
  rw [placeBoundingBox, get_bind, Call.ofExcept_bind_of_ok hRun, hNot, if_pos (by decide)]
  rw [doesNotIntersect, element_head (List.head?_eq_some_head hLat), ok_bind,
    element_last (List.getLast?_eq_some_getLast hLat), ok_bind, element_head (List.head?_eq_some_head hLon), ok_bind,
    element_last (List.getLast?_eq_some_getLast hLon), ok_bind]
  exact ⟨_, rfl⟩

theorem place_on (hLat : g.lat ≠ []) (hLon : g.lon ≠ []) (hSense : categorizeLatitude g.lat = .ok sense)
    (hOn : ¬ OffLongitudes g.lon left right ∧ ¬ OffLatitudes g.lat top bottom) :
    (∀ e, findLongitudeIndeces doubleToString g.lon left right = .error e →
        ∃ g', placeBoundingBox doubleToString sense top left bottom right g = .error e g') ∧
      ∀ i j, findLongitudeIndeces doubleToString g.lon left right = .ok (i, j) →
        ∃ g', placeBoundingBox doubleToString sense top left bottom right g = .ok () g' ∧ g'.longitudeIndexLeft = i ∧
          g'.longitudeIndexRight = j := by
  obtain ⟨valid, hRun, hValid⟩ := boundingBoxValid top left bottom right hLat hLon hSense
  obtain ⟨t, b, hPlace, -⟩ := findLatitudeIndeces_total hLat top bottom sense
  rw [placeBoundingBox, get_bind, Call.ofExcept_bind_of_ok hRun, hValid.mpr hOn, if_neg (by decide),
    Call.ofExcept_bind_of_ok hPlace]
  dsimp only
  rw [modify_bind]
  constructor
  · intro e hFind
    rw [Call.ofExcept_bind_of_error hFind]
    exact ⟨_, rfl⟩
  · intro i j hFind
    rw [Call.ofExcept_bind_of_ok hFind]
    exact ⟨_, rfl, rfl, rfl⟩

end

/-! ## What the indices hold -/

/-- Where a map has a longitude in the box, what the indices depend on. -/
structure Selects (lon : List Rat) (left right : Rat) : Prop where
  edges : ¬ OffLongitudes (lon.map toPosNotation) (toPosNotation left) (toPosNotation right)
  west : ∃ x ∈ lon, turn left ≤ turn x
  east : ∃ x ∈ lon, turn x ≤ turn right
  /-- A box with all longitudes leaves no room for an index to be moved. -/
  all : (∀ x ∈ lon, InBox left right x) →
    (¬ LeftMoves lon left ∧ ¬ RightMoves lon right ∨ lon.length = 2 ∧ LeftMoves lon left ∧ RightMoves lon right) ∧
      ¬ (360 ≤ right - left ∧ (∃ x ∈ lon, turn x = turn left) ∧ 1 < lon.length)
  butOne : (∃ s ∈ lon, ¬ InBox left right s ∧ ∀ x ∈ lon, ¬ InBox left right x → x = s) →
    ¬ (LeftMoves lon left ∧ RightMoves lon right)

theorem nonneg_of_head (hLon : lon ≠ []) (hRising : lon.Pairwise (· < ·)) (hHead : 0 ≤ lon.head hLon) :
    ∀ x ∈ lon, 0 ≤ x := by
  cases lon with
  | nil => exact absurd rfl hLon
  | cons west rest =>
    intro x hx
    rcases List.mem_cons.mp hx with rfl | hRest
    · exact hHead
    · exact hHead.trans (le_of_lt ((List.pairwise_cons.mp hRising).1 x hRest))

/-- The longitudes of a map in the order around the globe. -/
theorem risesFrom_map {f : Nat → Rat} (hElement : ∀ k, k < lon.length → element lon k = .ok (f k)) (hLon : lon ≠ [])
    (hRising : lon.Pairwise (· < ·)) (hSpan : ∀ x ∈ lon, ∀ y ∈ lon, y - x < 360) (hLow : ∀ x ∈ lon, -180 ≤ x) :
    ∃ o, RisesFrom (fun k => turn (f k)) lon.length o := by
  have hAt {k : Nat} (hk : k < lon.length) : lon[k] = f k := by
    have hOk := hElement k hk
    rw [element_ok hk] at hOk
    exact Except.ok.inj hOk
  have hTurns (k : Nat) : ∃ c : Int, k < lon.length → turn (f k) = f k + 360 * c ∧ 0 ≤ turn (f k) ∧
      turn (f k) < 360 := by
    by_cases hk : k < lon.length
    · obtain ⟨c, hTurn⟩ := turn_eq (hLow _ (List.getElem_mem hk))
      rw [hAt hk] at hTurn
      exact ⟨c, fun _ => hTurn⟩
    · exact ⟨0, fun hLt => absurd hLt hk⟩
  choose c hc using hTurns
  refine exists_risesFrom (c := c) (List.length_pos_iff.mpr hLon) fun k l hkl hl => ?_
  have hk := hkl.trans hl
  have hLt := List.pairwise_iff_getElem.mp hRising k l hk hl hkl
  have hLess := hSpan _ (List.getElem_mem hk) _ (List.getElem_mem hl)
  rw [hAt hk, hAt hl] at hLt hLess
  exact turn_cases hLt hLess (hc k hk) (hc l hl)

section
variable {w : Nat → Rat} {n o p q : Nat} {low high : Rat}

theorem Edges.least (h : Edges w n o low high p q) (hRises : RisesFrom w n o) {k : Nat} (hk : k < n)
    (hLow : low ≤ w k) :
    w (around n o p) ≤ w k := by
  obtain ⟨t, ht, rfl⟩ := exists_around hRises.1 hk
  rw [hRises.le_iff h.inside.1 ht]
  by_contra hNot
  exact absurd hLow (not_le.mpr (h.west t (by omega)))

theorem Edges.most (h : Edges w n o low high p q) (hRises : RisesFrom w n o) {k : Nat} (hk : k < n)
    (hHigh : w k ≤ high) :
    w k ≤ w (around n o q) := by
  obtain ⟨t, ht, rfl⟩ := exists_around hRises.1 hk
  rw [hRises.le_iff ht h.inside.2]
  by_contra hNot
  exact absurd hHigh (not_le.mpr (h.east t (by omega) ht))

/-- The same range by its indices in the map. -/
theorem Edges.inRing (h : Edges w n o low high p q) (hRises : RisesFrom w n o)
    (hSome : ∃ k, k < n ∧ InRing low high (w k))
    {k : Nat} (hk : k < n) : InRing low high (w k) ↔ InRing (around n o p) (around n o q) k := by
  obtain ⟨t, ht, rfl⟩ := exists_around hRises.1 hk
  obtain ⟨l, hl, hIn⟩ := hSome
  obtain ⟨s, hs, rfl⟩ := exists_around hRises.1 hl
  rw [inRing_around hRises.1 h.inside.1 h.inside.2 ht]
  exact hRises.inRing h.inside.1 h.inside.2 h.west h.first h.east h.last ⟨s, hs, hIn⟩ ht

/-- Edges at one place, where there is no longitude. -/
theorem Edges.inRing_all (h : Edges w n o low low p q) (hRises : RisesFrom w n o) (hNone : ∀ k, k < n → w k ≠ low)
    {k : Nat}
    (hk : k < n) : InRing (around n o p) (around n o q) k := by
  obtain ⟨t, ht, rfl⟩ := exists_around hRises.1 hk
  rw [inRing_around hRises.1 h.inside.1 h.inside.2 ht]
  have hLess : q < p := by
    rw [← hRises.lt_iff h.inside.2 h.inside.1]
    exact lt_of_lt_of_le (lt_of_le_of_ne h.last (hNone _ (around_lt hRises.1))) h.first
  have hNext : p = q + 1 := by
    by_contra hNot
    have hInside := h.inside.1
    exact lt_asymm (h.west (q + 1) (by omega)) (h.east (q + 1) (by omega) (by omega))
  exact (Core.inRing_all h.inside.1 h.inside.2).mpr (.inl hNext) t ht

end

theorem turn_of_full (hBox : OneNotation [left, right]) (hFull : 360 ≤ right - left) : turn left = turn right := by
  obtain ⟨k, hLeft, hLeftLow, hLeftHigh⟩ := turn_eq (hBox.low (by simp : left ∈ [left, right]))
  obtain ⟨m, hRight, hRightLow, hRightHigh⟩ := turn_eq (hBox.low (by simp : right ∈ [left, right]))
  have hTurn : right = left + 360 := by
    rcases hBox with hIn | hIn
    · have hl := hIn left (by simp)
      have hr := hIn right (by simp)
      linarith
    · have hl := hIn left (by simp)
      have hr := hIn right (by simp)
      linarith
  have hZero : m - k + 1 = 0 := turns_eq_zero (by push_cast; linarith) (by push_cast; linarith)
  have hCast : (m : Rat) - k + 1 = 0 := by exact_mod_cast hZero
  linarith

section
variable {f : Nat → Rat} {o p q i j l r : Nat} (hElement : ∀ k, k < lon.length → element lon k = .ok (f k))
  (hRises : RisesFrom (fun k => turn (f k)) lon.length o)
  (hEdges : Edges (fun k => turn (f k)) lon.length o (turn left) (turn right) p q)
include hElement hRises hEdges

theorem left_moved (hi : i = around lon.length o p)
    (hl : l = if turn (f i) = turn left then i else if i - 1 > 0 then i - 1 else 0) :
    (l = i ∨ l + 1 = i) ∧ (LeftMoves lon left ↔ l ≠ i) := by
  have hFirst := hEdges.first
  rw [← hi] at hFirst
  have hLt : i < lon.length := hi ▸ around_lt hRises.1
  obtain ⟨hLe, hGe, hAt, hBefore⟩ := before_or_at hl
  refine ⟨by omega, ?_⟩
  rw [leftMoves_iff hElement (fun _ => rfl) (fun k m hk hm => hRises.injective hk hm) hLt hFirst
    (fun k hk hIn => hi ▸ hEdges.least hRises hk hIn)]
  by_cases hHit : turn (f i) = turn left
  · have hSame := hAt hHit
    constructor
    · rintro ⟨hNot, -⟩
      exact absurd hHit hNot
    · intro hNot
      exact absurd hSame hNot
  · have hPrev := hBefore hHit
    rw [and_iff_right hHit]
    omega

theorem right_moved (hj : j = around lon.length o q)
    (hr : r = if turn (f j) = turn right then j else if j + 1 < lon.length - 1 then j + 1 else lon.length - 1) :
    (r = j ∨ r = j + 1 ∧ r < lon.length) ∧ (RightMoves lon right ↔ r ≠ j) := by
  have hLast := hEdges.last
  rw [← hj] at hLast
  have hLt : j < lon.length := hj ▸ around_lt hRises.1
  obtain ⟨hLe, hGe, hIn, hAt, hBehind⟩ := behind_or_at hLt hr
  refine ⟨by omega, ?_⟩
  rw [rightMoves_iff hElement (fun _ => rfl) (fun k m hk hm => hRises.injective hk hm) hLt hLast
    (fun k hk hIn => hj ▸ hEdges.most hRises hk hIn)]
  by_cases hHit : turn (f j) = turn right
  · have hSame := hAt hHit
    constructor
    · rintro ⟨hNot, -⟩
      exact absurd hHit hNot
    · intro hNot
      exact absurd hSame hNot
  · have hNext := hBehind hHit
    rw [and_iff_right hHit]
    omega

variable (hi : i = around lon.length o p) (hj : j = around lon.length o q)
  (hl : l = if turn (f i) = turn left then i else if i - 1 > 0 then i - 1 else 0)
  (hr : r = if turn (f j) = turn right then j else if j + 1 < lon.length - 1 then j + 1 else lon.length - 1)
include hi hj hl hr

/-- Where the longitudes in the box are the range from `i` to `j`. -/
theorem range_found_iff (hRange : ∀ k, k < lon.length → (InBox left right (f k) ↔ InRing i j k)) :
    (∀ k, k < lon.length → InBox left right (f k) → InRing l r k) ↔
      ((∀ x ∈ lon, InBox left right x) →
          ¬ LeftMoves lon left ∧ ¬ RightMoves lon right ∨ lon.length = 2 ∧ LeftMoves lon left ∧ RightMoves lon right) ∧
        ((∃ s ∈ lon, ¬ InBox left right s ∧ ∀ x ∈ lon, ¬ InBox left right x → x = s) →
          ¬ (LeftMoves lon left ∧ RightMoves lon right)) := by
  obtain ⟨hLeft, hLeftMoves⟩ := left_moved hElement hRises hEdges hi hl
  obtain ⟨hRight, hRightMoves⟩ := right_moved hElement hRises hEdges hj hr
  have hSame (k s : Nat) (hk : k < lon.length) (hs : s < lon.length) : f k = f s ↔ k = s := by
    constructor
    · intro h
      exact hRises.injective hk hs (congrArg turn h)
    · intro h
      rw [h]
  have hAll : (∀ x ∈ lon, InBox left right x) ↔ ∀ k, k < lon.length → InRing i j k := by
    rw [forall_elements hElement]
    exact forall_congr' fun k => forall_congr' fun hk => hRange k hk
  have hButOne : (∃ s ∈ lon, ¬ InBox left right s ∧ ∀ x ∈ lon, ¬ InBox left right x → x = s) ↔
      AllButOne i j lon.length := by
    rw [exists_element hElement, AllButOne]
    refine exists_congr fun s => and_congr_right fun hs => and_congr (not_congr (hRange s hs)) ?_
    rw [forall_elements hElement]
    exact forall_congr' fun k => forall_congr' fun hk => imp_congr (not_congr (hRange k hk)) (hSame k s hk hs)
  have hWidened := inRing_widened (hi ▸ around_lt hRises.1) (hj ▸ around_lt hRises.1) hLeft hRight
  rw [hAll, hButOne, hLeftMoves, hRightMoves, not_not, not_not, ← hWidened]
  exact forall_congr' fun k => forall_congr' fun hk => imp_congr (hRange k hk) Iff.rfl

omit hElement in
/-- Where the box goes all the way around from one longitude of the map to itself. -/
theorem turn_found_iff (hEnds : turn left = turn right) (hAll : ∀ k, k < lon.length → InBox left right (f k)) {s : Nat}
    (hs : s < lon.length) (hAt : turn (f s) = turn left) :
    (∀ k, k < lon.length → InBox left right (f k) → InRing l r k) ↔ lon.length ≤ 1 := by
  have hLeft : i = s := by
    refine hRises.injective (hi ▸ around_lt hRises.1) hs (le_antisymm ?_ ?_)
    · rw [hi]
      exact hEdges.least hRises hs (le_of_eq hAt.symm)
    · rw [hi]
      exact (le_of_eq hAt).trans hEdges.first
  have hRight : j = s := by
    refine hRises.injective (hj ▸ around_lt hRises.1) hs (le_antisymm ?_ ?_)
    · rw [hj]
      exact hEdges.last.trans (le_of_eq (hEnds.symm.trans hAt.symm))
    · rw [hj]
      exact hEdges.most hRises hs (le_of_eq (hAt.trans hEnds))
  rw [hLeft, if_pos hAt] at hl
  rw [hRight, if_pos (hAt.trans hEnds)] at hr
  rw [hl, hr]
  constructor
  · intro h
    have hZero := (inRing_le (Nat.le_refl s)).mp (h 0 (by omega) (hAll 0 (by omega)))
    have hLast := (inRing_le (Nat.le_refl s)).mp (h (lon.length - 1) (by omega) (hAll (lon.length - 1) (by omega)))
    omega
  · intro hOne k hk _
    rw [inRing_le (Nat.le_refl s)]
    omega

theorem selects_iff (hOn : ¬ OffLongitudes (lon.map toPosNotation) (toPosNotation left) (toPosNotation right))
    (hLow : ∀ x ∈ lon, -180 ≤ x) (hBox : OneNotation [left, right])
    (hSome : ∃ k, k < lon.length ∧ InBox left right (f k)) :
    (∀ k, k < lon.length → InBox left right (f k) → InRing l r k) ↔ Selects lon left right := by
  have hIn (k : Nat) (hk : k < lon.length) :
      InBox left right (f k) ↔ 360 ≤ right - left ∨ InRing (turn left) (turn right) (turn (f k)) :=
    hBox.inBox_iff ((forall_elements hElement).mp hLow k hk)
  have hWest : ∃ x ∈ lon, turn left ≤ turn x :=
    (exists_element hElement).mpr ⟨_, around_lt hRises.1, hEdges.first⟩
  have hEast : ∃ x ∈ lon, turn x ≤ turn right :=
    (exists_element hElement).mpr ⟨_, around_lt hRises.1, hEdges.last⟩
  by_cases hTurn : 360 ≤ right - left ∧ ∃ x ∈ lon, turn x = turn left
  · obtain ⟨hFull, x, hx, hAt⟩ := hTurn
    obtain ⟨s, hs, hHit⟩ := (exists_element (P := fun x => turn x = turn left) hElement).mp ⟨x, hx, hAt⟩
    have hAll (k : Nat) (hk : k < lon.length) : InBox left right (f k) := (hIn k hk).mpr (.inl hFull)
    have hEnds := turn_of_full hBox hFull
    rw [turn_found_iff hRises hEdges hi hj hl hr hEnds hAll hs hHit]
    constructor
    · intro hOne
      refine ⟨hOn, hWest, hEast, fun _ => ⟨.inl ⟨fun hMoves => hMoves.1 x hx hAt, fun hMoves => ?_⟩, ?_⟩, ?_⟩
      · exact hMoves.1 x hx (hAt.trans hEnds)
      · rintro ⟨-, -, hMore⟩
        omega
      · rintro - ⟨hMoves, -⟩
        exact hMoves.1 x hx hAt
    · intro hSelects
      by_contra hMore
      exact (hSelects.all ((forall_elements hElement).mpr hAll)).2 ⟨hFull, ⟨x, hx, hAt⟩, by omega⟩
  · have hRange (k : Nat) (hk : k < lon.length) : InBox left right (f k) ↔ InRing i j k := by
      rw [hIn k hk, hi, hj]
      by_cases hFull : 360 ≤ right - left
      · have hNone (m : Nat) (hm : m < lon.length) : turn (f m) ≠ turn left := by
          intro hAt
          exact hTurn ⟨hFull, (exists_element hElement).mpr ⟨m, hm, hAt⟩⟩
        rw [← turn_of_full hBox hFull] at hEdges
        exact iff_of_true (.inl hFull) (hEdges.inRing_all hRises hNone hk)
      · rw [or_iff_right hFull]
        refine hEdges.inRing hRises ?_ hk
        obtain ⟨m, hm, hInBox⟩ := hSome
        exact ⟨m, hm, ((hIn m hm).mp hInBox).resolve_left hFull⟩
    rw [range_found_iff hElement hRises hEdges hi hj hl hr hRange]
    constructor
    · rintro ⟨hAll, hButOne⟩
      refine ⟨hOn, hWest, hEast, fun h => ⟨hAll h, ?_⟩, hButOne⟩
      rintro ⟨hFull, hHit, -⟩
      exact hTurn ⟨hFull, hHit⟩
    · intro hSelects
      exact ⟨fun h => (hSelects.all h).1, hSelects.butOne⟩

end

/-! ## The claim of a box -/

section
variable {α : Type} (doubleToString : Rat → String)

/-- A box is refused only if it has nothing of the map, and else its range has every longitude in the box. -/
def BoxFound (g : GeoConstraint α) (top left bottom right : Rat) : Prop :=
  match setBoundingBox doubleToString top left bottom right g with
  | .ok _ g' => ∀ k x, g.lon[k]? = some x → InBox left right x → InRing g'.longitudeIndexLeft g'.longitudeIndexRight k
  | .error _ _ => (∀ x ∈ g.lon, ¬ InBox left right x) ∨ OffLatitudes g.lat top bottom

variable {doubleToString} {g : GeoConstraint α} {top bottom : Rat}

theorem boxFound_of_error {e : Fault} {g' : GeoConstraint α}
    (h : setBoundingBox doubleToString top left bottom right g = .error e g') :
    BoxFound doubleToString g top left bottom right ↔
      (∀ x ∈ g.lon, ¬ InBox left right x) ∨ OffLatitudes g.lat top bottom := by
  rw [BoxFound, h]

theorem boxFound_of_ok {g' : GeoConstraint α} (h : setBoundingBox doubleToString top left bottom right g = .ok () g')
    {f : Nat → Rat} (hElement : ∀ k, k < g.lon.length → element g.lon k = .ok (f k)) :
    BoxFound doubleToString g top left bottom right ↔
      ∀ k, k < g.lon.length → InBox left right (f k) → InRing g'.longitudeIndexLeft g'.longitudeIndexRight k := by
  rw [BoxFound, h]
  have hAt {k : Nat} (hk : k < g.lon.length) : g.lon[k]? = some (f k) := by
    have hOk := hElement k hk
    rw [element_ok hk] at hOk
    rw [List.getElem?_eq_getElem hk, Except.ok.inj hOk]
  constructor
  · intro hAll k hk hIn
    exact hAll k (f k) (hAt hk) hIn
  · intro hAll k x hx hIn
    have hk := (List.getElem?_eq_some_iff.mp hx).1
    rw [hAt hk] at hx
    cases hx
    exact hAll k hk hIn

/-- For a map that rises by less than a turn. -/
theorem box_found_iff (doubleToString : Rat → String) (g : GeoConstraint α) (top left bottom right : Rat)
    (hFresh : g.boundingBoxSet = false) (hRising : g.lon.Pairwise (· < ·)) (hNotation : OneNotation g.lon)
    (hSpan : ∀ x ∈ g.lon, ∀ y ∈ g.lon, y - x < 360) (hBox : OneNotation [left, right]) :
    BoxFound doubleToString g top left bottom right ↔
      OffLatitudes g.lat top bottom ∨ (∀ x ∈ g.lon, ¬ InBox left right x) ∨ Selects g.lon left right := by
  by_cases hLon : g.lon = []
  · have hNone : ∀ x ∈ g.lon, ¬ InBox left right x := by
      rw [hLon]
      exact fun x hx => absurd hx (List.not_mem_nil)
    refine iff_of_true ?_ (.inr (.inl hNone))
    rw [BoxFound]
    split
    · rw [hLon]
      intro k x hx
      cases hx
    · exact .inl hNone
  have hLow (x : Rat) (hx : x ∈ g.lon) : -180 ≤ x := hNotation.low hx
  by_cases hLat : g.lat = []
  · obtain ⟨e, g', hRun⟩ := set_of_no_latitudes doubleToString top left bottom right hFresh hLat
    have hOff : OffLatitudes g.lat top bottom := by
      left
      rw [hLat]
      rintro x (hx | hx) <;> cases hx
    rw [boxFound_of_error hRun]
    exact iff_of_true (.inr hOff) (.inl hOff)
  obtain ⟨sense, hSense⟩ := categorizeLatitude_total hLat
  obtain ⟨g₀, hLat₀, hLon₀, hPlaced⟩ := setBoundingBox_placed doubleToString top left bottom right hFresh hSense
    (element_head (List.head?_eq_some_head hLon)) (element_last (List.getLast?_eq_some_getLast hLon))
    fun hWest _ => nonneg_of_head hLon hRising hWest
  rw [← hLat₀] at hLat hSense
  have hLon' : g₀.lon ≠ [] := by
    rw [hLon₀]
    exact fun h => hLon (List.map_eq_nil_iff.mp h)
  by_cases hOff : OffLongitudes g₀.lon (toPosNotation left) (toPosNotation right) ∨ OffLatitudes g₀.lat top bottom
  · obtain ⟨e, hRun⟩ := place_off doubleToString top (toPosNotation left) bottom
        (toPosNotation right) hLat hLon' hSense hOff
    rw [boxFound_of_error (hPlaced.trans hRun)]
    rw [hLon₀, hLat₀] at hOff
    constructor
    · rintro (hNone | hMissed)
      · exact .inr (.inl hNone)
      · exact .inl hMissed
    · rintro (hMissed | hNone | hSelects)
      · exact .inr hMissed
      · exact .inl hNone
      · exact .inr (hOff.resolve_left hSelects.edges)
  obtain ⟨hOn, hMeets⟩ := not_or.mp hOff
  obtain ⟨hError, hOk⟩ := place_on doubleToString top (toPosNotation left) bottom
      (toPosNotation right) hLat hLon' hSense
    ⟨hOn, hMeets⟩
  rw [hLat₀] at hMeets
  rw [hLon₀] at hOn hError hOk
  rw [or_iff_right hMeets]
  obtain ⟨f, hElement, -⟩ := elements g.lon 0
  obtain ⟨o, hRises⟩ := risesFrom_map hElement hLon hRising hSpan hLow
  have hElement' (k : Nat) (hk : k < (g.lon.map toPosNotation).length) :
      element (g.lon.map toPosNotation) k = .ok (toPosNotation (f k)) := by
    rw [List.length_map] at hk
    have hAt := hElement k hk
    rw [element_ok hk] at hAt
    rw [element_ok (by rw [List.length_map]; exact hk), List.getElem_map, Except.ok.inj hAt]
  have hFind := find_longitudes doubleToString (toPosNotation left) (toPosNotation right) hElement'
    (w := fun k => turn (f k)) (fun _ => rfl) (by rw [List.length_map]; exact hRises)
  rw [List.length_map] at hFind
  rcases hFind with ⟨p, q, i, j, hEdges, hi, hj, hFind⟩ | ⟨⟨e, hFind⟩, hMissed⟩
  · obtain ⟨g', hRun, hLeft, hRight⟩ := hOk _ _ hFind
    rw [boxFound_of_ok (hPlaced.trans hRun) hElement, hLeft, hRight]
    by_cases hNone : ∀ x ∈ g.lon, ¬ InBox left right x
    · refine iff_of_true (fun k hk hIn => ?_) (.inl hNone)
      exact absurd hIn ((forall_elements hElement).mp hNone k hk)
    · rw [or_iff_right hNone]
      rw [forall_elements hElement] at hNone
      push Not at hNone
      exact selects_iff hElement hRises hEdges hi hj rfl rfl hOn hLow hBox hNone
  · obtain ⟨g', hRun⟩ := hError e hFind
    rw [boxFound_of_error (hPlaced.trans hRun), or_iff_left hMeets]
    constructor
    · exact .inl
    · rintro (hNone | hSelects)
      · exact hNone
      · obtain ⟨k, hk, hWest⟩ := (exists_element hElement).mp hSelects.west
        obtain ⟨m, hm, hEast⟩ := (exists_element hElement).mp hSelects.east
        rcases hMissed with hMissed | hMissed
        · exact absurd hWest (not_le.mpr (hMissed k hk))
        · exact absurd hEast (not_le.mpr (hMissed m hm))

end

/-- A map and a latitude map, and no box yet. -/
def unplaced (lat lon : List Rat) : GeoConstraint Unit where
  lat := lat
  lon := lon
  arrayData := none
  latitudeIndexTop := 0
  latitudeIndexBottom := 0
  longitudeIndexLeft := 0
  longitudeIndexRight := 0
  boundingBoxSet := false
  longitudeRightmost := true
  longitudeNotation := .unknownNotation
  latitudeSense := .unknownSense

theorem quarter_found : BoxFound (fun _ => "") (unplaced [45, -45] [0, 90, 180, 270]) 30 90 (-30) 180 := by
  refine (box_found_iff (fun _ => "") (unplaced [45, -45] [0, 90, 180, 270]) 30 90 (-30) 180 rfl
    (by with_unfolding_all decide) (.inr (by with_unfolding_all decide)) (by with_unfolding_all decide)
    (.inr (by with_unfolding_all decide))).mpr (.inr (.inr ?_))
  have hLeft : ¬ LeftMoves [0, 90, 180, 270] 90 := fun h => h.1 90 (by simp) rfl
  have hRight : ¬ RightMoves [0, 90, 180, 270] 180 := fun h => h.1 180 (by simp) rfl
  refine ⟨?_, ⟨90, by simp [unplaced], le_refl _⟩, ⟨180, by simp [unplaced], le_refl _⟩,
    fun _ => ⟨.inl ⟨hLeft, hRight⟩, fun h => absurd h.1 (by norm_num)⟩, fun _ h => hLeft h.1⟩
  rintro (h | h)
  · exact absurd (h _ rfl).1 (by with_unfolding_all decide)
  · exact absurd (h _ rfl).1 (by with_unfolding_all decide)

/-- A map from -180 on is not in order any more when the box is compared with its ends. -/
theorem east_refused :
    ∃ lat lon : List Rat, ∃ top left bottom right : Rat, lon.Pairwise (· < ·) ∧ OneNotation lon ∧
      (∀ x ∈ lon, ∀ y ∈ lon, y - x < 360) ∧ OneNotation [left, right] ∧
      ¬ BoxFound (fun _ => "") (unplaced lat lon) top left bottom right := by
  refine ⟨[45, -45], [-180, -90, 0, 90], 30, 0, -30, 90, by with_unfolding_all decide,
    .inl (by with_unfolding_all decide), by with_unfolding_all decide, .inl (by with_unfolding_all decide), ?_⟩
  have hThrown : (match setBoundingBox (fun _ => "") 30 0 (-30) 90 (unplaced [45, -45] [-180, -90, 0, 90]) with
      | .ok _ _ => false
      | .error _ _ => true) = true := by with_unfolding_all decide
  rw [BoxFound]
  split
  · rename_i hRun
    rw [hRun] at hThrown
    cases hThrown
  · rintro (hNone | hOff)
    · exact hNone 0 (by simp [unplaced]) ⟨0, by norm_num, by norm_num⟩
    · rcases hOff with hOff | hOff
      · exact absurd (hOff (-45) (.inr rfl)).1 (by norm_num)
      · exact absurd (hOff 45 (.inl rfl)).1 (by norm_num)

end Libdap.Functions
