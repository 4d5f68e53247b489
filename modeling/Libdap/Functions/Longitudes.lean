import Libdap.Core.Around
import Libdap.Functions.GeoConstraint
import Libdap.Functions.LatitudeIndices
import Mathlib.Tactic.Linarith
import Mathlib.Tactic.Ring

/-! # Longitudes around the globe

A longitude is the same after every full turn. A map that rises by less than a turn rises around the globe from one of
its longitudes on, and what a box holds of it is a range of that order.
-/

namespace Libdap.Functions
open Core
set_option autoImplicit false

/-- From the left edge east to the right one, whatever the turn. -/
def InBox (left right x : Rat) : Prop :=
  ∃ k : Int, left ≤ x + 360 * k ∧ x + 360 * k ≤ if left ≤ right then right else right + 360

/-- The longitudes of a map, or the edges of a box, are in one of the two notations. -/
def OneNotation (xs : List Rat) : Prop := (∀ x ∈ xs, -180 ≤ x ∧ x ≤ 180) ∨ ∀ x ∈ xs, 0 ≤ x ∧ x ≤ 360

/-- The longitude as `find_longitude_indeces` sees it. -/
def turn (x : Rat) : Rat := fmod (toPosNotation x) 360

variable {x y left right : Rat}

theorem OneNotation.low {xs : List Rat} (h : OneNotation xs) (hx : x ∈ xs) : -180 ≤ x := by
  rcases h with h | h
  · exact (h x hx).1
  · linarith [(h x hx).1]

theorem toPosNotation_nonneg (h : -180 ≤ x) : 0 ≤ toPosNotation x := by
  rw [toPosNotation]
  split <;> linarith

theorem toPosNotation_of_nonneg (h : 0 ≤ x) : toPosNotation x = x := if_neg (not_lt.mpr h)

theorem fmod_of_nonneg (h : 0 ≤ x) : ∃ k : Int, fmod x 360 = x + 360 * k ∧ 0 ≤ fmod x 360 ∧ fmod x 360 < 360 := by
  have hTruncate : truncate (x / 360) = (x / 360).floor := by
    rw [truncate, if_neg (not_lt.mpr (div_nonneg h (by norm_num)))]
  have hLow := Rat.floor_le (x / 360)
  have hHigh := Rat.lt_floor_add_one (x / 360)
  rw [fmod, hTruncate]
  push_cast at hHigh
  refine ⟨-(x / 360).floor, by push_cast; ring, ?_, ?_⟩ <;> linarith

theorem turn_eq (h : -180 ≤ x) : ∃ k : Int, turn x = x + 360 * k ∧ 0 ≤ turn x ∧ turn x < 360 := by
  obtain ⟨k, hTurn, hLow, hHigh⟩ := fmod_of_nonneg (toPosNotation_nonneg h)
  rw [turn]
  by_cases hNeg : x < 0
  · refine ⟨k + 1, ?_, hLow, hHigh⟩
    rw [hTurn, toPosNotation, if_pos hNeg]
    push_cast
    ring
  · refine ⟨k, ?_, hLow, hHigh⟩
    rw [hTurn, toPosNotation, if_neg hNeg]

theorem turns_eq_zero {j : Int} (hLow : -360 < 360 * (j : Rat)) (hHigh : 360 * (j : Rat) < 360) : j = 0 := by
  have hAbove : ((-1 : Int) : Rat) < j := by
    push_cast
    linarith
  have hBelow : (j : Rat) < (1 : Int) := by
    push_cast
    linarith
  have hAbove' := Int.cast_lt.mp hAbove
  have hBelow' := Int.cast_lt.mp hBelow
  omega

/-- The right edge of a box that does not go all the way around, seen from the turn of its left edge. -/
theorem right_edge {l r : Int} (hOrder : left ≤ right → right - left < 360) (hSeam : left - right ≤ 360)
    (hLeft : 0 ≤ left + 360 * l ∧ left + 360 * l < 360) (hRight : 0 ≤ right + 360 * r ∧ right + 360 * r < 360) :
    (if left ≤ right then right else right + 360) + 360 * (l : Rat) =
      if left + 360 * l ≤ right + 360 * r then right + 360 * r else right + 360 * r + 360 := by
  have hEdge : ∃ d : Int, (if left ≤ right then right else right + 360) + 360 * (l : Rat) = right + 360 * r + 360 * d ∧
      left + 360 * l ≤ right + 360 * r + 360 * d ∧ right + 360 * r + 360 * d < left + 360 * l + 360 := by
    split
    · rename_i hLe
      refine ⟨l - r, by push_cast; ring, by push_cast; linarith, ?_⟩
      push_cast
      linarith [hOrder hLe]
    · rename_i hGt
      refine ⟨l - r + 1, by push_cast; ring, by push_cast; linarith, ?_⟩
      push_cast
      linarith [not_le.mp hGt]
  obtain ⟨d, hEdge, hLow, hHigh⟩ := hEdge
  rw [hEdge]
  split
  · rename_i hLe
    have hZero : d = 0 := turns_eq_zero (by linarith) (by linarith)
    rw [hZero]
    push_cast
    ring
  · rename_i hGt
    have hZero : d - 1 = 0 := turns_eq_zero (by push_cast; linarith) (by push_cast; linarith)
    rw [show d = 1 by omega]
    push_cast
    ring

/-- A box that goes all the way around has every longitude; else the edges and the longitude can be compared within a
turn. -/
theorem inBox_iff (hLeft : -180 ≤ left) (hRight : -180 ≤ right) (hx : -180 ≤ x)
    (hSeam : left - right ≤ 360) :
    InBox left right x ↔ 360 ≤ right - left ∨ InRing (turn left) (turn right) (turn x) := by
  obtain ⟨l, hTurnLeft, hLeftLow, hLeftHigh⟩ := turn_eq hLeft
  obtain ⟨r, hTurnRight, hRightLow, hRightHigh⟩ := turn_eq hRight
  obtain ⟨m, hTurn, hLow, hHigh⟩ := turn_eq hx
  rw [InBox]
  by_cases hFull : 360 ≤ right - left
  · rw [if_pos (by linarith), iff_true_right (.inl hFull)]
    by_cases hFront : turn left ≤ turn x
    · refine ⟨m - l, ?_, ?_⟩ <;> push_cast <;> linarith
    · refine ⟨m - l + 1, ?_, ?_⟩ <;> push_cast <;> linarith [not_le.mp hFront]
  · rw [or_iff_right hFull]
    have hEdge := right_edge (l := l) (r := r) (fun _ => not_le.mp hFull) hSeam
      (by rw [← hTurnLeft]; exact ⟨hLeftLow, hLeftHigh⟩) (by rw [← hTurnRight]; exact ⟨hRightLow, hRightHigh⟩)
    rw [← hTurnLeft, ← hTurnRight] at hEdge
    generalize (if left ≤ right then right else right + 360) = edge at *
    by_cases hOrder : turn left ≤ turn right
    · rw [if_pos hOrder] at hEdge
      rw [inRing_le hOrder]
      constructor
      · rintro ⟨k, hFront, hBack⟩
        have hTurns : k - m + l = 0 := turns_eq_zero (by push_cast; linarith) (by push_cast; linarith)
        have hCast : (k : Rat) - m + l = 0 := by exact_mod_cast hTurns
        constructor <;> linarith
      · rintro ⟨hFront, hBack⟩
        refine ⟨m - l, ?_, ?_⟩ <;> push_cast <;> linarith
    · rw [if_neg hOrder] at hEdge
      have hSeam' := not_le.mp hOrder
      rw [inRing_not_le hOrder]
      constructor
      · rintro ⟨k, hFront, hBack⟩
        by_cases hIn : turn left ≤ turn x
        · exact .inl hIn
        · have hTurns : k - m + l - 1 = 0 := turns_eq_zero (by push_cast; linarith [not_le.mp hIn])
              (by push_cast; linarith)
          have hCast : (k : Rat) - m + l - 1 = 0 := by exact_mod_cast hTurns
          right
          linarith
      · rintro (hFront | hBack)
        · refine ⟨m - l, ?_, ?_⟩ <;> push_cast <;> linarith
        · refine ⟨m - l + 1, ?_, ?_⟩ <;> push_cast <;> linarith

theorem OneNotation.inBox_iff (hBox : OneNotation [left, right]) (hx : -180 ≤ x) :
    InBox left right x ↔ 360 ≤ right - left ∨ InRing (turn left) (turn right) (turn x) := by
  have hLeft : left ∈ [left, right] := List.mem_cons_self
  have hRight : right ∈ [left, right] := List.mem_cons_of_mem left (List.mem_singleton_self right)
  refine Functions.inBox_iff (hBox.low hLeft) (hBox.low hRight) hx ?_
  rcases hBox with hIn | hIn <;> linarith [hIn left hLeft, hIn right hRight, (hIn left hLeft).2, (hIn right hRight).1]

/-- Two longitudes of a map, which rises by less than a turn. -/
theorem turn_cases {k l : Int} (hLt : x < y) (hSpan : y - x < 360)
    (hx : turn x = x + 360 * k ∧ 0 ≤ turn x ∧ turn x < 360)
    (hy : turn y = y + 360 * l ∧ 0 ≤ turn y ∧ turn y < 360) : l = k ∧ turn x < turn y ∨ l + 1 = k ∧
      turn y < turn x := by
  by_cases hSame : l = k
  · subst hSame
    exact .inl ⟨rfl, by linarith⟩
  · have hTurns : l - k ≤ 0 := by
      by_contra hNot
      have hMore : ((1 : Int) : Rat) ≤ ((l - k : Int) : Rat) := Int.cast_le.mpr (by omega)
      push_cast at hMore
      linarith
    have hOne : -2 < l - k := by
      by_contra hNot
      have hLess : ((l - k : Int) : Rat) ≤ ((-2 : Int) : Rat) := Int.cast_le.mpr (by omega)
      push_cast at hLess
      linarith
    have hBack : l + 1 = k := by omega
    refine .inr ⟨hBack, ?_⟩
    have hCast : (l : Rat) + 1 = k := by exact_mod_cast hBack
    linarith

end Libdap.Functions

/-! ## The indices of a box of longitudes

The two loops start at the least longitude and at the greatest, so that the first longitude that is not west of the box
and the last that is not east of it are what they find.
-/

namespace Libdap.Functions
open Core
set_option autoImplicit false

variable {lon : List Rat} {f : Nat → Rat} {n o : Nat} {left right : Rat}

theorem lonOrigin_ok (hElement : ∀ k, k < lon.length → element lon k = .ok (f k)) {i start : Nat}
    (hLen : i + n = lon.length)
    (hStart : start < lon.length) (hLeast : ∀ k, k < i → fmod (f start) 360 ≤ fmod (f k) 360) :
    ∃ o, lonOrigin lon n i start (fmod (f start) 360) = .ok o ∧ o < lon.length ∧
      ∀ k, k < lon.length → fmod (f o) 360 ≤ fmod (f k) 360 := by
  induction n generalizing i start with
  | zero => exact ⟨start, rfl, hStart, fun k hk => hLeast k (by omega)⟩
  | succ n ih =>
    rw [lonOrigin, hElement i (by omega), ok_bind]
    dsimp only
    have hUpTo {m : Nat} (hBefore : ∀ k, k < i → fmod (f m) 360 ≤ fmod (f k) 360)
        (hHere : fmod (f m) 360 ≤ fmod (f i) 360)
        (k : Nat) (hk : k < i + 1) : fmod (f m) 360 ≤ fmod (f k) 360 := by
      rcases Nat.lt_succ_iff_lt_or_eq.mp hk with hk | rfl
      · exact hBefore k hk
      · exact hHere
    by_cases hLess : fmod (f start) 360 > fmod (f i) 360
    · rw [if_pos hLess]
      exact ih (by omega) (by omega) (hUpTo (fun k hk => (le_of_lt hLess).trans (hLeast k hk)) (le_refl _))
    · rw [if_neg hLess]
      exact ih (by omega) hStart (hUpTo hLeast (not_lt.mp hLess))

/-- What is found in a map whose longitudes rise around the globe from the origin `o` on. -/
structure Edges (w : Nat → Rat) (n o : Nat) (low high : Rat) (p q : Nat) : Prop where
  inside : p < n ∧ q < n
  west : ∀ s, s < p → w (around n o s) < low
  first : low ≤ w (around n o p)
  east : ∀ s, q < s → s < n → high < w (around n o s)
  last : w (around n o q) ≤ high

theorem find_longitudes (doubleToString : Rat → String) (left right : Rat)
    (hElement : ∀ k, k < lon.length → element lon k = .ok (f k)) {w : Nat → Rat}
    (hw : ∀ k, fmod (f k) 360 = w k) (hRises : RisesFrom w lon.length o) :
    (∃ p q i j, Edges w lon.length o (fmod left 360) (fmod right 360) p q ∧
        i = around lon.length o p ∧ j = around lon.length o q ∧
        findLongitudeIndeces doubleToString lon left right =
          .ok (if w i = fmod left 360 then i else if i - 1 > 0 then i - 1 else 0,
            if w j = fmod right 360 then j else if j + 1 < lon.length - 1 then j + 1 else lon.length - 1)) ∨
      (∃ e, findLongitudeIndeces doubleToString lon left right = .error e) ∧
        ((∀ k, k < lon.length → w k < fmod left 360) ∨ ∀ k, k < lon.length → fmod right 360 < w k) := by
  have hPos : 0 < lon.length := Nat.zero_lt_of_lt hRises.1
  obtain ⟨origin, hOrigin, hOriginLt, hLeast⟩ := lonOrigin_ok hElement (Nat.zero_add lon.length) hPos
    (fun k hk => absurd hk (Nat.not_lt_zero k))
  -- the least longitude is where the order around the globe starts
  have hSame : origin = o := by
    refine hRises.origin hOriginLt fun k hk => ?_
    rw [← hw, ← hw]
    exact hLeast k hk
  subst hSame
  have hUp := scanAround_forward (p := fun i => do pure (decide (fmod (← element lon i) 360 < fmod left 360)))
    (q := fun i => decide (w i < fmod left 360)) (indexNotFound doubleToString left) hOriginLt
    (fun k hk => by rw [hElement k hk, ok_bind, hw]; rfl)
  have hDown := scanAround_back (p := fun i => do pure (decide (fmod (← element lon i) 360 > fmod right 360)))
    (q := fun i => decide (w i > fmod right 360)) (indexNotFound doubleToString right) hOriginLt
    (fun k hk => by rw [hElement k hk, ok_bind, hw]; rfl)
  rw [findLongitudeIndeces]
  rw [hElement 0 hPos, ok_bind, hOrigin, ok_bind]
  rcases hUp with ⟨p, hp, hUp, hWest, hFirst⟩ | ⟨hUp, hWest⟩
  · rw [hUp, ok_bind, hElement _ (around_lt hOriginLt), ok_bind, hw]
    dsimp only
    rcases hDown with ⟨q, hq, hDown, hEast, hLast⟩ | ⟨hDown, hEast⟩
    · rw [hDown, ok_bind, hElement _ (around_lt hOriginLt), ok_bind, hw]
      refine .inl ⟨p, q, _, _, ⟨⟨hp, hq⟩, fun s hs => ?_, ?_, fun s hs hLt => ?_, ?_⟩, rfl, rfl, rfl⟩
      · exact of_decide_eq_true (hWest s hs)
      · exact not_lt.mp (of_decide_eq_false hFirst)
      · exact of_decide_eq_true (hEast s hs hLt)
      · exact not_lt.mp (of_decide_eq_false hLast)
    · rw [hDown, error_bind]
      exact .inr ⟨⟨_, rfl⟩, .inr fun k hk => of_decide_eq_true (hEast k hk)⟩
  · rw [hUp, error_bind]
    exact .inr ⟨⟨_, rfl⟩, .inl fun k hk => of_decide_eq_true (hWest k hk)⟩

/-! ## Indices that are moved -/

/-- The left edge is not at a longitude of the map, and the first one to the east of it is not at index 0. -/
def LeftMoves (lon : List Rat) (left : Rat) : Prop :=
  (∀ x ∈ lon, turn x ≠ turn left) ∧
    ∀ x, lon.head? = some x → ¬ (turn left < turn x ∧ ∀ y ∈ lon, turn left < turn y → turn x ≤ turn y)

/-- The right edge is not at a longitude of the map, and the last one to the west of it is not at the last index. -/
def RightMoves (lon : List Rat) (right : Rat) : Prop :=
  (∀ x ∈ lon, turn x ≠ turn right) ∧
    ∀ x, lon.getLast? = some x → ¬ (turn x < turn right ∧ ∀ y ∈ lon, turn y < turn right → turn y ≤ turn x)

section
variable {w : Nat → Rat} {i j : Nat} (hElement : ∀ k, k < lon.length → element lon k = .ok (f k))
  (hw : ∀ k, turn (f k) = w k) (hApart : ∀ k l, k < lon.length → l < lon.length → w k = w l → k = l)
include hElement hw hApart

theorem leftMoves_iff (hi : i < lon.length) (hFirst : turn left ≤ w i)
    (hLeast : ∀ k, k < lon.length → turn left ≤ w k → w i ≤ w k) :
    LeftMoves lon left ↔ w i ≠ turn left ∧ 0 < i := by
  have hHead : lon.head? = some (f 0) := by
    have hZero := hElement 0 (by omega)
    rw [List.head?_eq_getElem?, List.getElem?_eq_getElem (by omega)]
    rw [element_ok (by omega)] at hZero
    rw [Except.ok.inj hZero]
  rw [LeftMoves, hHead, forall_elements hElement]
  simp only [Option.some.injEq, forall_eq', forall_elements hElement, hw]
  constructor
  · rintro ⟨hNone, hMoved⟩
    refine ⟨hNone i hi, ?_⟩
    by_contra hNot
    obtain rfl := Nat.eq_zero_of_not_pos hNot
    exact hMoved ⟨lt_of_le_of_ne hFirst (hNone 0 hi).symm, fun k hk hLt => hLeast k hk (le_of_lt hLt)⟩
  · rintro ⟨hNot, hPos⟩
    have hLt := lt_of_le_of_ne hFirst hNot.symm
    refine ⟨fun k hk hAt => ?_, ?_⟩
    · exact absurd (hLeast k hk (le_of_eq hAt.symm)) (not_le.mpr (hAt ▸ hLt))
    · rintro ⟨hBelow, hAll⟩
      have hSame : w 0 = w i := le_antisymm (hAll i hi hLt) (hLeast 0 (by omega) (le_of_lt hBelow))
      exact absurd (hApart 0 i (by omega) hi hSame) (by omega)

theorem rightMoves_iff (hj : j < lon.length) (hLast : w j ≤ turn right)
    (hMost : ∀ k, k < lon.length → w k ≤ turn right → w k ≤ w j) :
    RightMoves lon right ↔ w j ≠ turn right ∧ j < lon.length - 1 := by
  have hEnd : lon.getLast? = some (f (lon.length - 1)) := by
    have hZero := hElement (lon.length - 1) (by omega)
    rw [List.getLast?_eq_getElem?, List.getElem?_eq_getElem (by omega)]
    rw [element_ok (by omega)] at hZero
    rw [Except.ok.inj hZero]
  rw [RightMoves, hEnd, forall_elements hElement]
  simp only [Option.some.injEq, forall_eq', forall_elements hElement, hw]
  constructor
  · rintro ⟨hNone, hMoved⟩
    refine ⟨hNone j hj, ?_⟩
    by_contra hNot
    have hAt : lon.length - 1 = j := by omega
    rw [hAt] at hMoved
    exact hMoved ⟨lt_of_le_of_ne hLast (hNone j hj), fun k hk hLt => hMost k hk (le_of_lt hLt)⟩
  · rintro ⟨hNot, hBefore⟩
    have hLt := lt_of_le_of_ne hLast hNot
    refine ⟨fun k hk hAt => ?_, ?_⟩
    · exact absurd (hMost k hk (le_of_eq hAt)) (not_le.mpr (hAt ▸ hLt))
    · rintro ⟨hAbove, hAll⟩
      have hSame : w j = w (lon.length - 1) :=
        le_antisymm (hAll j hj hLt) (hMost (lon.length - 1) (by omega) (le_of_lt hAbove))
      exact absurd (hApart j (lon.length - 1) hj (by omega) hSame) (by omega)

end

end Libdap.Functions
