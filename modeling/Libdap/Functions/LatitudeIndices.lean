import Libdap.Functions.GeoConstraint

/-! # The indices of a band of latitudes

The interval of indices holds every latitude of the band, and only its two ends may be outside of the band.
-/

namespace Libdap.Functions
open Core
set_option autoImplicit false

variable {κ : Type} [LinearOrder κ] {lat : List κ} {top bottom : κ}

/-- What the indices of `top` and `bottom` have to do with the band, for a map of one sense. -/
structure Covers (lat : List κ) (top bottom : κ) (sense : LatitudeSense) (indexTop indexBottom : Nat) : Prop where
  inside : indexTop < lat.length ∧ indexBottom < lat.length
  ordered : if sense = .normal then indexTop ≤ indexBottom else indexBottom ≤ indexTop
  holds : ∀ k x, lat[k]? = some x → bottom ≤ x → x ≤ top →
    min indexTop indexBottom ≤ k ∧ k ≤ max indexTop indexBottom
  ends : ∀ k x, lat[k]? = some x → min indexTop indexBottom ≤ k → k ≤ max indexTop indexBottom →
    (k ≠ indexTop → x ≤ top) ∧ (k ≠ indexBottom → bottom ≤ x)

theorem categorize_normal (hNonempty : lat ≠ []) (h : lat.Pairwise (· > ·)) :
    categorizeLatitude lat = .ok .normal := by
  have hPos := List.length_pos_iff.mpr hNonempty
  rw [categorizeLatitude, element_ok hPos, ok_bind, element_ok (by omega), ok_bind]
  rw [List.pairwise_iff_getElem] at h
  have hFirst : lat[0] ≥ lat[lat.length - 1] := by
    rcases Nat.eq_zero_or_pos (lat.length - 1) with hOne | hMore
    · simp [hOne]
    · exact le_of_lt (h 0 (lat.length - 1) hPos (by omega) hMore)
  rw [if_pos hFirst]
  rfl

theorem categorize_inverted (hTwo : 1 < lat.length) (h : lat.Pairwise (· < ·)) :
    categorizeLatitude lat = .ok .inverted := by
  rw [categorizeLatitude, element_ok (by omega), ok_bind, element_ok (by omega), ok_bind]
  rw [List.pairwise_iff_getElem] at h
  have hFirst : ¬ lat[0] ≥ lat[lat.length - 1] := not_le.mpr (h 0 (lat.length - 1) (by omega) (by omega) (by omega))
  rw [if_neg hFirst]
  rfl

/-- An index or the one before it, which is not below 0. -/
theorem before_or_at {c : Prop} [Decidable c] {i first : Nat}
    (h : first = if c then i else if i - 1 > 0 then i - 1 else 0) :
    first ≤ i ∧ i ≤ first + 1 ∧ (c → first = i) ∧ (¬ c → first = i - 1) := by
  rw [h]
  split
  · rename_i hc
    exact ⟨Nat.le_refl i, by omega, fun _ => rfl, fun hNot => absurd hc hNot⟩
  · rename_i hc
    split
    · exact ⟨by omega, by omega, fun h => absurd h hc, fun _ => rfl⟩
    · exact ⟨by omega, by omega, fun h => absurd h hc, fun _ => by omega⟩

theorem behind_or_at {c : Prop} [Decidable c] {j n last : Nat} (hj : j < n)
    (h : last = if c then j else if j + 1 < n - 1 then j + 1 else n - 1) :
    j ≤ last ∧ last ≤ j + 1 ∧ last < n ∧ (c → last = j) ∧ (¬ c → last = min (j + 1) (n - 1)) := by
  rw [h]
  split
  · rename_i hc
    exact ⟨Nat.le_refl j, by omega, hj, fun _ => rfl, fun hNot => absurd hc hNot⟩
  · rename_i hc
    split
    · exact ⟨by omega, by omega, by omega, fun h => absurd h hc, fun _ => by omega⟩
    · exact ⟨by omega, by omega, by omega, fun h => absurd h hc, fun _ => by omega⟩

/-- From the first index `i` that is not before the band and the last one `j` that is not behind it, in a map that
falls from its first element to its last. -/
theorem band {f : Nat → κ} {n i j : Nat} (hi lo : κ) (hMono : ∀ k l, k ≤ l → l < n → f l ≤ f k) (hBox : lo ≤ hi)
    (hiLt : i < n) (hBefore : ∀ k, k < i → hi < f k) (hAt : f i ≤ hi) (hjLt : j < n)
    (hBehind : ∀ k, j < k → k < n → f k < lo) (hAtEnd : lo ≤ f j) {first last : Nat}
    (hFirst : first ≤ i ∧ i ≤ first + 1 ∧ (¬ f i = hi → first = i - 1)) (hLast : j ≤ last ∧ last ≤ j + 1 ∧ last < n) :
    (first ≤ last ∧ last < n) ∧ (∀ k, k < n → lo ≤ f k → f k ≤ hi → first ≤ k ∧ k ≤ last) ∧
      ∀ k, first ≤ k → k ≤ last → (k ≠ first → f k ≤ hi) ∧ (k ≠ last → lo ≤ f k) := by
  obtain ⟨hFirstLe, hFirstGe, hMissed⟩ := hFirst
  obtain ⟨hLastGe, hLastLe, hLastLt⟩ := hLast
  -- no index is before and behind the band
  have hNear : i ≤ j + 1 := by
    by_contra hFar
    have hAbove := hBefore (j + 1) (by omega)
    have hBelow := hBehind (j + 1) (by omega) (by omega)
    exact absurd (hBelow.trans_le hBox) (not_lt.mpr (le_of_lt hAbove))
  -- where the band has no element, `i` is behind it
  have hGap (hSame : i = j + 1) : first = i - 1 := by
    have hBelow : f i < lo := hBehind i (by omega) hiLt
    exact hMissed (ne_of_lt (hBelow.trans_le hBox))
  refine ⟨⟨?_, hLastLt⟩, ?_, ?_⟩
  · rcases Nat.eq_or_lt_of_le hNear with hSame | hLess
    · have hPrev := hGap hSame
      omega
    · omega
  · intro k hk hLow hHigh
    have hFront : i ≤ k := by
      by_contra hNot
      exact absurd hHigh (not_le.mpr (hBefore k (by omega)))
    have hBack : k ≤ j := by
      by_contra hNot
      exact absurd hLow (not_le.mpr (hBehind k (by omega) hk))
    omega
  · intro k hFront hBack
    constructor
    · intro hNot
      exact (hMono i k (by omega) (by omega)).trans hAt
    · intro hNot
      exact hAtEnd.trans (hMono k j (by omega) hjLt)

theorem find_normal {f : Nat → κ} (hPos : 0 < lat.length) (hElement : ∀ k, k < lat.length → element lat k = .ok (f k))
    (hValue : ∀ k x, lat[k]? = some x → k < lat.length ∧ x = f k)
    (hMono : ∀ k l, k ≤ l → l < lat.length → f l ≤ f k) (hBox : bottom ≤ top) (hTop : f (lat.length - 1) ≤ top)
    (hBottom : bottom ≤ f 0) :
    ∃ t b, findLatitudeIndeces lat top bottom .normal = .ok (t, b) ∧ Covers lat top bottom .normal t b := by
  obtain ⟨i, hUp, -, hiLe, hBefore, hAt⟩ :=
    scanUp_ok (p := fun i => do pure (decide (top < (← element lat i)))) (q := fun i => decide (top < f i)) (i := 0)
      (n := lat.length - 1) fun k _ hk => by rw [hElement k (by omega)]; rfl
  obtain ⟨j, hDown, hjLe, hBehind, hAtEnd⟩ :=
    scanDown_ok (p := fun j => do pure (decide (bottom > (← element lat j)))) (q := fun j => decide (bottom > f j))
      (i := lat.length - 1) fun k _ hk => by rw [hElement k (by omega)]; rfl
  have hiTop : f i ≤ top := by
    rcases Nat.eq_or_lt_of_le hiLe with hLast | hStopped
    · rw [hLast, Nat.zero_add]
      exact hTop
    · exact not_lt.mp (of_decide_eq_false (hAt hStopped))
  have hjBottom : bottom ≤ f j := by
    rcases Nat.eq_zero_or_pos j with rfl | hStopped
    · exact hBottom
    · exact not_lt.mp (of_decide_eq_false (hAtEnd hStopped))
  rw [findLatitudeIndeces, if_pos rfl, hUp, ok_bind, hDown, ok_bind, hElement i (by omega), ok_bind,
    hElement j (by omega), ok_bind]
  refine ⟨_, _, rfl, ?_⟩
  obtain ⟨hFirstLe, hFirstGe, -, hMissed⟩ := before_or_at (c := f i = top) (i := i) rfl
  obtain ⟨hLastGe, hLastLe, hLastLt, -, -⟩ := behind_or_at (c := f j = bottom) (j := j) (n := lat.length) (by omega) rfl
  obtain ⟨⟨hOrder, hLt⟩, hHolds, hEnds⟩ := band top bottom hMono hBox (by omega)
    (fun k hk => of_decide_eq_true (hBefore k (Nat.zero_le k) hk)) hiTop (by omega)
    (fun k hk hLt => of_decide_eq_true (hBehind k hk (by omega))) hjBottom ⟨hFirstLe, hFirstGe, hMissed⟩
    ⟨hLastGe, hLastLe, hLastLt⟩
  refine ⟨⟨by omega, hLt⟩, by rw [if_pos rfl]; exact hOrder, ?_, ?_⟩
  · intro k x hx hLow hHigh
    obtain ⟨hk, rfl⟩ := hValue k x hx
    rw [min_eq_left hOrder, max_eq_right hOrder]
    exact hHolds k hk hLow hHigh
  · intro k x hx hFront hBack
    obtain ⟨hk, rfl⟩ := hValue k x hx
    rw [min_eq_left hOrder] at hFront
    rw [max_eq_right hOrder] at hBack
    exact hEnds k hFront hBack

theorem find_inverted {f : Nat → κ} (hPos : 0 < lat.length) (hElement : ∀ k, k < lat.length → element lat k = .ok (f k))
    (hValue : ∀ k x, lat[k]? = some x → k < lat.length ∧ x = f k)
    (hMono : ∀ k l, k ≤ l → l < lat.length → f k ≤ f l) (hBox : bottom ≤ top) (hTop : f 0 ≤ top)
    (hBottom : bottom ≤ f (lat.length - 1)) :
    ∃ t b, findLatitudeIndeces lat top bottom .inverted = .ok (t, b) ∧ Covers lat top bottom .inverted t b := by
  obtain ⟨i, hDown, hiLe, hBehind, hAtEnd⟩ :=
    scanDown_ok (p := fun i => do pure (decide ((← element lat i) > top))) (q := fun i => decide (f i > top))
      (i := lat.length - 1) fun k _ hk => by rw [hElement k (by omega)]; rfl
  obtain ⟨j, hUp, -, hjLe, hBefore, hAt⟩ :=
    scanUp_ok (p := fun j => do pure (decide ((← element lat j) < bottom))) (q := fun j => decide (f j < bottom))
      (i := 0) (n := lat.length - 1) fun k _ hk => by rw [hElement k (by omega)]; rfl
  have hiTop : f i ≤ top := by
    rcases Nat.eq_zero_or_pos i with rfl | hStopped
    · exact hTop
    · exact not_lt.mp (of_decide_eq_false (hAtEnd hStopped))
  have hjBottom : bottom ≤ f j := by
    rcases Nat.eq_or_lt_of_le hjLe with hLast | hStopped
    · rw [hLast, Nat.zero_add]
      exact hBottom
    · exact not_lt.mp (of_decide_eq_false (hAt hStopped))
  rw [findLatitudeIndeces, if_neg (by decide), hDown, ok_bind, hUp, ok_bind, hElement i (by omega), ok_bind,
    hElement j (by omega), ok_bind]
  refine ⟨_, _, rfl, ?_⟩
  obtain ⟨hFirstLe, hFirstGe, -, hMissed⟩ := before_or_at (c := f j = bottom) (i := j) rfl
  obtain ⟨hLastGe, hLastLe, hLastLt, -, -⟩ := behind_or_at (c := f i = top) (j := i) (n := lat.length) (by omega) rfl
  -- in the other order the map falls, and the band is from `bottom` to `top`
  obtain ⟨⟨hOrder, hLt⟩, hHolds, hEnds⟩ := band (κ := κᵒᵈ) (f := f) bottom top hMono hBox (by omega)
    (fun k hk => of_decide_eq_true (hBefore k (Nat.zero_le k) hk)) hjBottom (by omega)
    (fun k hk hLt => of_decide_eq_true (hBehind k hk (by omega))) hiTop ⟨hFirstLe, hFirstGe, hMissed⟩
    ⟨hLastGe, hLastLe, hLastLt⟩
  refine ⟨⟨hLt, by omega⟩, by rw [if_neg (by decide)]; exact hOrder, ?_, ?_⟩
  · intro k x hx hLow hHigh
    obtain ⟨hk, rfl⟩ := hValue k x hx
    rw [min_eq_right hOrder, max_eq_left hOrder]
    exact hHolds k hk hHigh hLow
  · intro k x hx hFront hBack
    obtain ⟨hk, rfl⟩ := hValue k x hx
    rw [min_eq_right hOrder] at hFront
    rw [max_eq_left hOrder] at hBack
    exact (hEnds k hFront hBack).symm

/-- For a map that falls or rises throughout, and a band that meets its range. -/
theorem latitudes_covered (lat : List κ) (top bottom : κ) (hNonempty : lat ≠ [])
    (hMono : lat.Pairwise (· > ·) ∨ lat.Pairwise (· < ·)) (hBox : bottom ≤ top)
    (hMeets : (∃ x ∈ lat, x ≤ top) ∧ ∃ x ∈ lat, bottom ≤ x) :
    ∃ sense t b, categorizeLatitude lat = .ok sense ∧ findLatitudeIndeces lat top bottom sense = .ok (t, b) ∧
      Covers lat top bottom sense t b := by
  have hPos := List.length_pos_iff.mpr hNonempty
  obtain ⟨f, hElement, hValue⟩ := elements lat top
  obtain ⟨⟨low, hLow, hTop⟩, high, hHigh, hBottom⟩ := hMeets
  obtain ⟨k, hk, hkLow⟩ := List.getElem_of_mem hLow
  obtain ⟨l, hl, hlHigh⟩ := List.getElem_of_mem hHigh
  have hf {m : Nat} (hm : m < lat.length) : lat[m] = f m := (hValue m _ (List.getElem?_eq_getElem hm)).2
  rw [← hkLow, hf hk] at hTop
  rw [← hlHigh, hf hl] at hBottom
  by_cases hFalls : lat.Pairwise (· > ·)
  · have hAnti (k l : Nat) (hk : k ≤ l) (hl : l < lat.length) : f l ≤ f k := by
      rw [← hf hl, ← hf (by omega : k < lat.length)]
      rcases Nat.eq_or_lt_of_le hk with rfl | hk
      · exact le_refl _
      · exact le_of_lt (List.pairwise_iff_getElem.mp hFalls k l (by omega) hl hk)
    obtain ⟨t, b, hFind, hCovers⟩ := find_normal hPos hElement hValue hAnti hBox
      ((hAnti k _ (by omega) (by omega)).trans hTop) (hBottom.trans (hAnti 0 l (Nat.zero_le l) hl))
    exact ⟨.normal, t, b, categorize_normal hNonempty hFalls, hFind, hCovers⟩
  · have hRises := hMono.resolve_left hFalls
    have hTwo : 1 < lat.length := by
      by_contra hOne
      obtain ⟨x, rfl⟩ := List.length_eq_one_iff.mp (by omega : lat.length = 1)
      exact hFalls (List.pairwise_singleton _ x)
    have hUp (k l : Nat) (hk : k ≤ l) (hl : l < lat.length) : f k ≤ f l := by
      rw [← hf hl, ← hf (by omega : k < lat.length)]
      rcases Nat.eq_or_lt_of_le hk with rfl | hk
      · exact le_refl _
      · exact le_of_lt (List.pairwise_iff_getElem.mp hRises k l (by omega) hl hk)
    obtain ⟨t, b, hFind, hCovers⟩ := find_inverted hPos hElement hValue hUp hBox
      ((hUp 0 k (Nat.zero_le k) hk).trans hTop) (hBottom.trans (hUp l _ (by omega) (by omega)))
    exact ⟨.inverted, t, b, categorize_inverted hTwo hRises, hFind, hCovers⟩

theorem latitudes_covered_rising : ∃ sense t b, categorizeLatitude [-30, 0, 30, (60 : Int)] = .ok sense ∧
    findLatitudeIndeces [-30, 0, 30, (60 : Int)] 40 10 sense = .ok (t, b) ∧
      Covers [-30, 0, 30, (60 : Int)] 40 10 sense t b :=
  latitudes_covered [-30, 0, 30, 60] 40 10 (by simp) (.inr (by decide)) (by decide)
    ⟨⟨0, by decide, by decide⟩, 30, by decide, by decide⟩

end Libdap.Functions
