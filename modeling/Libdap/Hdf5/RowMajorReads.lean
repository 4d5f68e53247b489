import Libdap.Hdf5.HDF5Array
import Libdap.Hdf5.HDF5CFUtil

/-! # The order of the elements that are read

The counts of the linear indices start with the first dimension, and strings and references are looked up by the first
dimension alone. Whole datasets and hyperslabs of numbers come in row-major order.
-/

namespace Libdap.Hdf5
open Core Constraint Http
set_option autoImplicit false

/-! ## Integers -/

theorem int_ok {n : Nat} (h : (n : Int) ≤ Core.INT_MAX) : int n = .ok n := if_pos h

theorem int_error {n : Nat} (h : ¬(n : Int) ≤ Core.INT_MAX) : int n = .error .undefined := if_neg h

theorem product_ok {ns : List Nat} {n : Nat} (hPos : ∀ m ∈ ns, 0 < m) (h : ((n * ns.prod : Nat) : Int) ≤ Core.INT_MAX) :
    ns.foldlM (fun product m => int (product * m)) n = .ok (n * ns.prod) := by
  induction ns generalizing n with
  | nil =>
    rw [List.prod_nil, Nat.mul_one]
    rfl
  | cons m ns ih =>
    obtain ⟨hm, hRest⟩ := List.forall_mem_cons.mp hPos
    rw [List.prod_cons, ← Nat.mul_assoc] at h
    have hLess : ((n * m : Nat) : Int) ≤ Core.INT_MAX :=
      le_trans (Int.ofNat_le.mpr (Nat.le_mul_of_pos_right _ (prod_pos hRest))) h
    rw [List.foldlM_cons, int_ok hLess, ok_bind, ih hRest h, List.prod_cons, Nat.mul_assoc]

theorem product_fits {ns : List Nat} {n product : Nat} (hn : (n : Int) ≤ Core.INT_MAX)
    (h : ns.foldlM (fun product m => int (product * m)) n = .ok product) : ((n * ns.prod : Nat) : Int) ≤ Core.INT_MAX := by
  induction ns generalizing n with
  | nil => rwa [List.prod_nil, Nat.mul_one]
  | cons m ns ih =>
    rw [List.foldlM_cons] at h
    obtain ⟨next, hNext, h⟩ := bind_eq_ok h
    rw [int] at hNext
    split at hNext
    · rename_i hFits
      cases hNext
      rw [List.prod_cons, ← Nat.mul_assoc]
      exact ih hFits h
    · cases hNext

/-! ## Places -/

section
variable {slabs : List Slab} {ds : List Nat}

def Slab.at (s : Slab) (i : Nat) : Nat := s.offset + i * s.step

/-- The place that the counts tell. -/
def placeOf (slabs : List Slab) (is : List Nat) : Nat := flat (slabs.map Slab.dim) (List.zipWith Slab.at slabs is)

theorem tuples_indices (slabs : List Slab) : tuples (slabs.map Slab.indices) =
    (tuples ((slabs.map Slab.count).map List.range)).map (List.zipWith Slab.at slabs) := by
  induction slabs with
  | nil => rfl
  | cons s slabs ih =>
    simp only [List.map_cons, tuples, Slab.indices, List.flatMap_map, List.map_flatMap, ih, List.map_map]
    rfl

theorem places_eq (slabs : List Slab) : places slabs =
    (List.range (slabs.map Slab.count).prod).map fun k => placeOf slabs (indices (slabs.map Slab.count) k) := by
  rw [places, tuples_indices, tuples_range, List.map_map, List.map_map]
  rfl

theorem at_lt {s : Slab} (h : s.Inside) {i : Nat} (hi : i < s.count) : s.at i < s.dim := by
  have hMost : i * s.step ≤ (s.count - 1) * s.step := Nat.mul_le_mul_right _ (by omega)
  have hInside := h.2.2
  rw [Slab.at]
  omega

theorem at_inj {s : Slab} (h : s.Inside) {i j : Nat} (hij : s.at i = s.at j) : i = j :=
  Nat.eq_of_mul_eq_mul_right h.1 (Nat.add_left_cancel hij)

theorem at_inside (hInside : ∀ s ∈ slabs, s.Inside) (h : List.Forall₂ (· < ·) ds (slabs.map Slab.count)) :
    List.Forall₂ (· < ·) (List.zipWith Slab.at slabs ds) (slabs.map Slab.dim) := by
  induction slabs generalizing ds with
  | nil =>
    cases h
    exact .nil
  | cons s slabs ih =>
    obtain ⟨hs, hRest⟩ := List.forall_mem_cons.mp hInside
    cases h with
    | cons hd h => exact .cons (at_lt hs hd) (ih hRest h)

theorem placeOf_lt (hInside : ∀ s ∈ slabs, s.Inside) (h : List.Forall₂ (· < ·) ds (slabs.map Slab.count)) :
    placeOf slabs ds < (slabs.map Slab.dim).prod := flat_lt (at_inside hInside h)

theorem zipWith_inj (hInside : ∀ s ∈ slabs, s.Inside) {is : List Nat} (hd : ds.length = slabs.length)
    (hi : is.length = slabs.length) (h : List.zipWith Slab.at slabs ds = List.zipWith Slab.at slabs is) : ds = is := by
  induction slabs generalizing ds is with
  | nil => rw [List.length_eq_zero_iff.mp hd, List.length_eq_zero_iff.mp hi]
  | cons s slabs ih =>
    obtain ⟨hs, hRest⟩ := List.forall_mem_cons.mp hInside
    cases ds with
    | nil => cases hd
    | cons d ds =>
      cases is with
      | nil => cases hi
      | cons i is =>
        rw [List.zipWith_cons_cons, List.zipWith_cons_cons, List.cons.injEq] at h
        rw [at_inj hs h.1, ih hRest (Nat.succ.inj hd) (Nat.succ.inj hi) h.2]

/-- Different counts are at different places. -/
theorem placeOf_inj (hInside : ∀ s ∈ slabs, s.Inside) {is : List Nat}
    (hd : List.Forall₂ (· < ·) ds (slabs.map Slab.count)) (hi : List.Forall₂ (· < ·) is (slabs.map Slab.count))
    (h : placeOf slabs ds = placeOf slabs is) : ds = is := by
  have hSame := congrArg (indices (slabs.map Slab.dim)) h
  rw [placeOf, placeOf, indices_flat (at_inside hInside hd), indices_flat (at_inside hInside hi)] at hSame
  exact zipWith_inj hInside (by rw [hd.length_eq, List.length_map]) (by rw [hi.length_eq, List.length_map]) hSame

theorem counts_pos (hInside : ∀ s ∈ slabs, s.Inside) : ∀ n ∈ slabs.map Slab.count, 0 < n :=
  List.forall_mem_map.mpr fun s hs => (hInside s hs).2.1

theorem dims_pos (hInside : ∀ s ∈ slabs, s.Inside) : ∀ n ∈ slabs.map Slab.dim, 0 < n :=
  List.forall_mem_map.mpr fun s hs => Nat.zero_lt_of_lt (hInside s hs).2.2

end

/-! ## Linear indices -/

/-- The inner loop goes from the fastest dimension to the slowest. -/
theorem placeFrom_ok {slabs : List Slab} {ds : List Nat} (hInside : ∀ s ∈ slabs, s.Inside)
    (h : List.Forall₂ (· < ·) ds (slabs.map Slab.count)) {tempDim arrayIndex : Nat} (hIndex : arrayIndex < tempDim)
    (hFits : ((tempDim * (slabs.map Slab.dim).prod : Nat) : Int) ≤ Core.INT_MAX) :
    placeFrom slabs (ds.map (· + 1)) tempDim arrayIndex =
      .ok (arrayIndex + tempDim * Odometer.value (slabs.map Slab.dim) (List.zipWith Slab.at slabs ds)) := by
  induction slabs generalizing ds tempDim arrayIndex with
  | nil =>
    cases h
    simp [placeFrom, Odometer.value]
  | cons s slabs ih =>
    obtain ⟨hs, hRest⟩ := List.forall_mem_cons.mp hInside
    cases h with
    | @cons d n ds ns hd h =>
      have hAt : d * s.step + s.offset < s.dim := by
        have hAt := at_lt hs hd
        rw [Slab.at] at hAt
        omega
      have hAll : 0 < (slabs.map Slab.dim).prod := prod_pos (dims_pos hRest)
      rw [List.map_cons, List.prod_cons, ← Nat.mul_assoc] at hFits
      have hDim : ((tempDim * s.dim : Nat) : Int) ≤ Core.INT_MAX :=
        le_trans (Int.ofNat_le.mpr (Nat.le_mul_of_pos_right _ hAll)) hFits
      have hOne : s.dim ≤ tempDim * s.dim := Nat.le_mul_of_pos_left _ (Nat.zero_lt_of_lt hIndex)
      have hPlace : (s.offset + d * s.step) * tempDim + tempDim ≤ tempDim * s.dim := by
        calc (s.offset + d * s.step) * tempDim + tempDim = tempDim * (d * s.step + s.offset + 1) := by ring
          _ ≤ tempDim * s.dim := Nat.mul_le_mul_left _ hAt
      have hLess {m : Nat} (hm : m ≤ tempDim * s.dim) : (m : Int) ≤ Core.INT_MAX := le_trans (Int.ofNat_le.mpr hm) hDim
      rw [List.map_cons, placeFrom, Nat.add_sub_cancel, int_ok (hLess (by omega)), ok_bind, int_ok (hLess (by omega)),
        ok_bind, int_ok (hLess (by omega)), ok_bind, int_ok (hLess (by omega)), ok_bind, int_ok hDim, ok_bind,
        ih hRest h (by omega) hFits, List.map_cons, List.zipWith_cons_cons, Odometer.value, Slab.at]
      refine congrArg Except.ok ?_
      ring

theorem advance_eq {ds counts : List Nat} (h : List.Forall₂ (· < ·) ds counts) :
    advance (ds.map (· + 1)) counts = (Odometer.step counts ds).1.map (· + 1) := by
  induction h with
  | nil => rfl
  | @cons d n ds counts hd _ ih =>
    rw [List.map_cons, advance, Odometer.step, ih]
    by_cases hLast : d + 1 = n
    · rw [if_neg (by omega), if_pos hLast]
      rfl
    · rw [if_pos (by omega), if_neg hLast]
      rfl

/-- The place of the counts, of which the first advances fastest. -/
def pickAt (slabs : List Slab) (k : Nat) : Nat := placeOf slabs (Odometer.digits (slabs.map Slab.count) k)

theorem placeFrom_digits {slabs : List Slab} (hInside : ∀ s ∈ slabs, s.Inside)
    (hFits : ((slabs.map Slab.dim).prod : Int) ≤ Core.INT_MAX) (k : Nat) :
    placeFrom slabs.reverse ((Odometer.digits (slabs.map Slab.count) k).map (· + 1)).reverse 1 0 =
      .ok (pickAt slabs k) := by
  have hDigits := Odometer.digits_lt (counts_pos hInside) k
  have hReverse : List.Forall₂ (· < ·) (Odometer.digits (slabs.map Slab.count) k).reverse
      (slabs.reverse.map Slab.count) := by
    rw [List.map_reverse]
    exact List.rel_reverse hDigits
  have hLength : (List.zipWith Slab.at slabs (Odometer.digits (slabs.map Slab.count) k)).length =
      (slabs.map Slab.dim).length := (at_inside hInside hDigits).length_eq
  rw [← List.map_reverse, placeFrom_ok (fun s hs => hInside s (List.mem_reverse.mp hs)) hReverse Nat.one_pos
    (by rwa [List.map_reverse, List.prod_reverse, Nat.one_mul]), Nat.zero_add, Nat.one_mul, List.map_reverse,
    ← List.reverse_zipWith (by rw [Odometer.length_digits, List.length_map]), value_reverse hLength]
  rfl

theorem picksFrom_ok {slabs : List Slab} (hInside : ∀ s ∈ slabs, s.Inside)
    (hFits : ((slabs.map Slab.dim).prod : Int) ≤ Core.INT_MAX) {room left k : Nat} {picks : List Nat}
    (hRoom : picks.length + left ≤ room) :
    picksFrom slabs room left ((Odometer.digits (slabs.map Slab.count) k).map (· + 1)) picks =
      .ok (picks ++ (List.range' k left).map (pickAt slabs)) := by
  induction left generalizing k picks with
  | zero => simp [picksFrom]
  | succ left ih =>
    have hNext : advance ((Odometer.digits (slabs.map Slab.count) k).map (· + 1)) (slabs.map Slab.count) =
        (Odometer.digits (slabs.map Slab.count) (k + 1)).map (· + 1) := by
      rw [advance_eq (Odometer.digits_lt (counts_pos hInside) k), Odometer.step_digits (counts_pos hInside)]
    rw [picksFrom, if_pos (by omega), placeFrom_digits hInside hFits, ok_bind, hNext,
      ih (by rw [List.length_append, List.length_singleton]; omega), List.range'_succ, List.map_cons, List.append_assoc,
      List.singleton_append]

def picksOf (slabs : List Slab) : List Nat := (List.range (slabs.map Slab.count).prod).map (pickAt slabs)

/-- No dimension has more indices selected than it has. -/
theorem count_le {s : Slab} (h : s.Inside) : s.count ≤ s.dim := by
  obtain ⟨hStep, hCount, hInside⟩ := h
  have hMost : s.count - 1 ≤ (s.count - 1) * s.step := Nat.le_mul_of_pos_right _ hStep
  omega

theorem counts_le {slabs : List Slab} (hInside : ∀ s ∈ slabs, s.Inside) :
    (slabs.map Slab.count).prod ≤ (slabs.map Slab.dim).prod := by
  induction slabs with
  | nil => exact Nat.le_refl 1
  | cons s slabs ih =>
    obtain ⟨hs, hRest⟩ := List.forall_mem_cons.mp hInside
    rw [List.map_cons, List.map_cons, List.prod_cons, List.prod_cons]
    exact Nat.mul_le_mul (count_le hs) (ih hRest)

theorem counts_fit {slabs : List Slab} (hInside : ∀ s ∈ slabs, s.Inside)
    (hFits : ((slabs.map Slab.dim).prod : Int) ≤ Core.INT_MAX) : ((slabs.map Slab.count).prod : Int) ≤ Core.INT_MAX :=
  le_trans (Int.ofNat_le.mpr (counts_le hInside)) hFits

theorem linearize_ok {slabs : List Slab} (hInside : ∀ s ∈ slabs, s.Inside)
    (hFits : ((slabs.map Slab.dim).prod : Int) ≤ Core.INT_MAX) :
    linearizeMultiDimensions slabs (slabs.map Slab.count).prod = .ok ((slabs.map Slab.dim).prod, picksOf slabs) := by
  have hStart : List.replicate slabs.length 1 = (Odometer.digits (slabs.map Slab.count) 0).map (· + 1) := by
    rw [Odometer.digits_zero, List.length_map, List.map_replicate]
  have hCounts := counts_fit hInside hFits
  rw [linearizeMultiDimensions, product_ok (dims_pos hInside) (by rwa [Nat.one_mul]), ok_bind,
    product_ok (counts_pos hInside) (by rwa [Nat.one_mul]), ok_bind, hStart, Nat.one_mul, Nat.one_mul,
    picksFrom_ok hInside hFits (Nat.le_of_eq (Nat.zero_add _)), ok_bind, List.nil_append, picksOf, List.range_eq_range']

theorem linearize_fits {slabs : List Slab} {total room : Nat} {picks : List Nat}
    (h : linearizeMultiDimensions slabs room = .ok (total, picks)) : ((slabs.map Slab.dim).prod : Int) ≤ Core.INT_MAX := by
  rw [linearizeMultiDimensions] at h
  obtain ⟨product, hProduct, -⟩ := bind_eq_ok h
  have hFits := product_fits (by decide) hProduct
  rwa [Nat.one_mul] at hFits

/-- At most one dimension has more than one index selected. -/
def OneWide (slabs : List Slab) : Prop := ((slabs.map Slab.count).filter (1 < ·)).length ≤ 1

theorem picks_of_oneWide {slabs : List Slab} (hInside : ∀ s ∈ slabs, s.Inside) (h : OneWide slabs) :
    picksOf slabs = places slabs := by
  rw [picksOf, places_eq]
  refine List.map_congr_left fun k hk => ?_
  rw [pickAt, digits_eq_indices (counts_pos hInside) h (List.mem_range.mp hk)]

/-- The first step already tells whether the order is right. -/
theorem oneWide_of_second {slabs : List Slab} (hInside : ∀ s ∈ slabs, s.Inside)
    (h : 1 < (slabs.map Slab.count).prod → pickAt slabs 1 = placeOf slabs (indices (slabs.map Slab.count) 1)) :
    OneWide slabs := by
  have hPos := counts_pos hInside
  by_cases hMany : 1 < (slabs.map Slab.count).prod
  · exact one_of_digits hPos (placeOf_inj hInside (Odometer.digits_lt hPos 1) (indices_lt hPos 1) (h hMany))
  · have hNone : (slabs.map Slab.count).filter (1 < ·) = [] := List.filter_eq_nil_iff.mpr fun n hn => by
      have hMost : n ≤ (slabs.map Slab.count).prod := Nat.le_of_dvd (prod_pos hPos) (List.dvd_prod hn)
      simpa using hMost.trans (Nat.le_of_not_lt hMany)
    rw [OneWide, hNone]
    exact Nat.zero_le 1

theorem places_getElem (slabs : List Slab) {i : Nat} (hi : i < (slabs.map Slab.count).prod) :
    (places slabs)[i]? = some (placeOf slabs (indices (slabs.map Slab.count) i)) := by
  rw [places_eq, List.getElem?_map, List.getElem?_range hi, Option.map_some]

theorem picks_getElem (slabs : List Slab) {i : Nat} (hi : i < (slabs.map Slab.count).prod) :
    (picksOf slabs)[i]? = some (pickAt slabs i) := by
  rw [picksOf, List.getElem?_map, List.getElem?_range hi, Option.map_some]

/-- The list is the row-major one exactly when one dimension at most is wide. -/
theorem linearize_iff {slabs : List Slab} (hInside : ∀ s ∈ slabs, s.Inside) :
    linearizeMultiDimensions slabs (slabs.map Slab.count).prod = .ok ((slabs.map Slab.dim).prod, places slabs) ↔
      ((slabs.map Slab.dim).prod : Int) ≤ Core.INT_MAX ∧ OneWide slabs := by
  constructor
  · intro h
    have hFits := linearize_fits h
    rw [linearize_ok hInside hFits] at h
    have hSame : picksOf slabs = places slabs := (Prod.mk.inj (Except.ok.inj h)).2
    refine ⟨hFits, oneWide_of_second hInside fun hMany => ?_⟩
    have hSecond := congrArg (·[1]?) hSame
    exact Option.some.inj (by rwa [picks_getElem slabs hMany, places_getElem slabs hMany] at hSecond)
  · rintro ⟨hFits, hOne⟩
    rw [linearize_ok hInside hFits, picks_of_oneWide hInside hOne]

theorem places_lt {slabs : List Slab} (hInside : ∀ s ∈ slabs, s.Inside) :
    ∀ p ∈ places slabs, p < (slabs.map Slab.dim).prod := by
  intro p hp
  rw [places_eq] at hp
  obtain ⟨k, -, rfl⟩ := List.mem_map.mp hp
  exact placeOf_lt hInside (indices_lt (counts_pos hInside) k)

/-! ## Lookups by the first dimension -/

/-- How far the counts lead from the first place. -/
def drift : List Slab → List Nat → Nat
  | s :: slabs, i :: is => i * (s.step * (slabs.map Slab.dim).prod) + drift slabs is
  | _, _ => 0

/-- A step in a wide dimension is as many steps in the first dimension as there are elements to go over. -/
def Even (step : Nat) : List Slab → Prop
  | [] => True
  | s :: slabs =>
    (1 < s.count → s.step * (slabs.map Slab.dim).prod = step * (slabs.map Slab.count).prod) ∧ Even step slabs

theorem placeOf_drift {slabs : List Slab} {is : List Nat} (h : is.length = slabs.length) :
    placeOf slabs is = placeOf slabs (List.replicate slabs.length 0) + drift slabs is := by
  induction slabs generalizing is with
  | nil =>
    rw [List.length_eq_zero_iff.mp h]
    rfl
  | cons s slabs ih =>
    cases is with
    | nil => cases h
    | cons i is =>
      have hRest := ih (Nat.succ.inj h)
      rw [placeOf, placeOf] at hRest
      rw [placeOf, placeOf, List.length_cons, List.replicate_succ, List.zipWith_cons_cons, List.zipWith_cons_cons,
        List.map_cons, flat, flat, hRest, drift, Slab.at, Slab.at]
      ring

theorem drift_zero (slabs : List Slab) (n : Nat) : drift slabs (List.replicate n 0) = 0 := by
  induction slabs generalizing n with
  | nil => rfl
  | cons s slabs ih =>
    cases n with
    | zero => rfl
    | succ n => rw [List.replicate_succ, drift, ih, Nat.zero_mul]

theorem flat_zero (shape : List Nat) (n : Nat) : flat shape (List.replicate n 0) = 0 := by
  induction shape generalizing n with
  | nil => rfl
  | cons m shape ih =>
    cases n with
    | zero => rfl
    | succ n => rw [List.replicate_succ, flat, ih, Nat.zero_mul]

theorem zeros_lt {ns : List Nat} (hPos : ∀ n ∈ ns, 0 < n) : List.Forall₂ (· < ·) (List.replicate ns.length 0) ns := by
  rw [← indices_zero]
  exact indices_lt hPos 0

theorem even_iff {slabs : List Slab} (hInside : ∀ s ∈ slabs, s.Inside) (step : Nat) :
    Even step slabs ↔ ∀ is, List.Forall₂ (· < ·) is (slabs.map Slab.count) →
      drift slabs is = step * flat (slabs.map Slab.count) is := by
  induction slabs with
  | nil => exact iff_of_true trivial fun is _ => by cases is <;> rfl
  | cons s slabs ih =>
    obtain ⟨hs, hRest⟩ := List.forall_mem_cons.mp hInside
    have hZeros : List.Forall₂ (· < ·) (List.replicate slabs.length 0) (slabs.map Slab.count) := by
      have hAll := zeros_lt (counts_pos hRest)
      rwa [List.length_map] at hAll
    rw [Even, ih hRest]
    constructor
    · rintro ⟨hHere, hAll⟩ is h
      rw [List.map_cons] at h
      cases h with
      | @cons i n is ns hi h =>
        rw [drift, List.map_cons, flat, hAll is h]
        by_cases hWide : 1 < s.count
        · rw [hHere hWide]
          ring
        · have hZero : i = 0 := by omega
          rw [hZero]
          ring
    · intro hAll
      constructor
      · intro hWide
        have hUnit := hAll (1 :: List.replicate slabs.length 0) (.cons hWide hZeros)
        rw [drift, drift_zero, List.map_cons, flat, flat_zero] at hUnit
        simpa using hUnit
      · intro is h
        have hTail := hAll (0 :: is) (.cons hs.2.1 h)
        rw [drift, List.map_cons, flat] at hTail
        simpa using hTail

/-- The lookup by the first dimension finds the places of the whole hyperslab. -/
def ByFirst : List Slab → Prop
  | [] => False
  | s :: slabs => placeOf (s :: slabs) (List.replicate (slabs.length + 1) 0) = s.offset ∧ Even s.step (s :: slabs)

theorem byFirst_iff {s : Slab} {slabs : List Slab} (hInside : ∀ s' ∈ s :: slabs, s'.Inside) :
    ByFirst (s :: slabs) ↔ ∀ k, k < ((s :: slabs).map Slab.count).prod →
      placeOf (s :: slabs) (indices ((s :: slabs).map Slab.count) k) = s.offset + k * s.step := by
  have hPos := counts_pos hInside
  have hStart : indices ((s :: slabs).map Slab.count) 0 = List.replicate (slabs.length + 1) 0 := by
    rw [indices_zero, List.length_map, List.length_cons]
  have hPlace (is : List Nat) (h : List.Forall₂ (· < ·) is ((s :: slabs).map Slab.count)) :
      placeOf (s :: slabs) is = placeOf (s :: slabs) (List.replicate (slabs.length + 1) 0) + drift (s :: slabs) is :=
    placeOf_drift (by rw [h.length_eq, List.length_map])
  rw [ByFirst, even_iff hInside]
  constructor
  · rintro ⟨hFirst, hAll⟩ k hk
    have hLess := indices_lt hPos k
    rw [hPlace _ hLess, hFirst, hAll _ hLess, flat_indices hk, Nat.mul_comm]
  · intro hAll
    have hFirst := hAll 0 (prod_pos hPos)
    rw [hStart, Nat.zero_mul, Nat.add_zero] at hFirst
    refine ⟨hFirst, fun is h => ?_⟩
    have hHere := hAll (flat ((s :: slabs).map Slab.count) is) (flat_lt h)
    rw [indices_flat h, hPlace is h, hFirst] at hHere
    rw [Nat.add_left_cancel hHere, Nat.mul_comm]

/-! ## Loops over a list -/

section
variable {α β ε : Type} {f : α → Except ε β} {g : α → β} {as : List α} {bs : List β}

theorem mapM_ok (h : ∀ a ∈ as, f a = .ok (g a)) : as.mapM f = .ok (as.map g) := by
  induction as with
  | nil => rfl
  | cons a as ih =>
    obtain ⟨ha, hRest⟩ := List.forall_mem_cons.mp h
    rw [List.mapM_cons, ha, ih hRest]
    rfl

theorem mapM_forall₂ (h : as.mapM f = .ok bs) : List.Forall₂ (fun a b => f a = .ok b) as bs := by
  induction as generalizing bs with
  | nil =>
    cases h
    exact .nil
  | cons a as ih =>
    rw [List.mapM_cons] at h
    cases hHead : f a with
    | error e =>
      rw [hHead] at h
      cases h
    | ok b =>
      cases hTail : as.mapM f with
      | error e =>
        rw [hHead, hTail] at h
        cases h
      | ok bs' =>
        rw [hHead, hTail] at h
        cases h
        exact .cons hHead (ih hTail)

theorem mapM_getElem (h : as.mapM f = .ok bs) {i : Nat} {a : α} (ha : as[i]? = some a) :
    ∃ b, bs[i]? = some b ∧ f a = .ok b := by
  have hAll := mapM_forall₂ h
  clear h
  induction hAll generalizing i with
  | nil => cases ha
  | @cons a' b' as bs hHead _ ih =>
    cases i with
    | zero =>
      rw [List.getElem?_cons_zero] at ha
      cases ha
      exact ⟨b', rfl, hHead⟩
    | succ i => exact ih ha

/-- Elements that are all there. -/
theorem filterMap_getElem {es : List α} {ps : List Nat} (h : ∀ p ∈ ps, p < es.length) (i : Nat) :
    (ps.filterMap (es[·]?))[i]? = ps[i]?.bind (es[·]?) := by
  induction ps generalizing i with
  | nil => rfl
  | cons p ps ih =>
    obtain ⟨hp, hRest⟩ := List.forall_mem_cons.mp h
    rw [List.filterMap_cons_some (List.getElem?_eq_getElem hp)]
    cases i with
    | zero => exact (List.getElem?_eq_getElem hp).symm
    | succ i => exact ih hRest i

theorem length_filterMap_getElem {es : List α} {ps : List Nat} (h : ∀ p ∈ ps, p < es.length) :
    (ps.filterMap (es[·]?)).length = ps.length := by
  induction ps with
  | nil => rfl
  | cons p ps ih =>
    obtain ⟨hp, hRest⟩ := List.forall_mem_cons.mp h
    rw [List.filterMap_cons_some (List.getElem?_eq_getElem hp), List.length_cons, List.length_cons, ih hRest]

theorem filterMap_range_getElem (es : List α) : (List.range es.length).filterMap (es[·]?) = es := by
  have hAll : ∀ p ∈ List.range es.length, p < es.length := fun p hp => List.mem_range.mp hp
  refine List.ext_getElem? fun i => ?_
  rw [filterMap_getElem hAll]
  by_cases hi : i < es.length
  · rw [List.getElem?_range hi, Option.bind_some]
  · rw [List.getElem?_eq_none (by rw [List.length_range]; omega), List.getElem?_eq_none (by omega), Option.bind_none]

end

/-! ## Whole datasets -/

theorem prod_eq_of_le {slabs : List Slab} (hInside : ∀ s ∈ slabs, s.Inside)
    (h : (slabs.map Slab.count).prod = (slabs.map Slab.dim).prod) : ∀ s ∈ slabs, s.count = s.dim := by
  induction slabs with
  | nil => exact nofun
  | cons s slabs ih =>
    obtain ⟨hs, hRest⟩ := List.forall_mem_cons.mp hInside
    rw [List.map_cons, List.map_cons, List.prod_cons, List.prod_cons] at h
    have hCount := count_le hs
    have hTail := counts_le hRest
    have hPos : 0 < (slabs.map Slab.count).prod := prod_pos (counts_pos hRest)
    have hHere : s.count = s.dim := by
      refine Nat.le_antisymm hCount (Nat.le_of_not_lt fun hLess => ?_)
      have hBelow : s.count * (slabs.map Slab.count).prod < s.dim * (slabs.map Slab.count).prod :=
        Nat.mul_lt_mul_of_pos_right hLess hPos
      have hAbove : s.dim * (slabs.map Slab.count).prod ≤ s.dim * (slabs.map Slab.dim).prod :=
        Nat.mul_le_mul_left _ hTail
      omega
    rw [hHere] at h
    have hDim : 0 < s.dim := hHere ▸ hs.2.1
    exact List.forall_mem_cons.mpr ⟨hHere, ih hRest (Nat.eq_of_mul_eq_mul_left hDim h)⟩

theorem at_whole {s : Slab} (h : s.Inside) (hAll : s.count = s.dim) {i : Nat} (hi : i < s.count) : s.at i = i := by
  obtain ⟨hStep, hCount, hInside⟩ := h
  rw [hAll] at hi hCount
  rw [hAll] at hInside
  have hOffset : s.offset = 0 := by
    have hMost : s.dim - 1 ≤ (s.dim - 1) * s.step := Nat.le_mul_of_pos_right _ hStep
    omega
  rw [Slab.at, hOffset, Nat.zero_add]
  by_cases hOne : s.dim = 1
  · have hZero : i = 0 := by omega
    rw [hZero, Nat.zero_mul]
  · have hUnit : s.step = 1 := by
      refine Nat.le_antisymm (Nat.le_of_not_lt fun hMany => ?_) hStep
      have hTwice : (s.dim - 1) * 2 ≤ (s.dim - 1) * s.step := Nat.mul_le_mul_left _ hMany
      omega
    rw [hUnit, Nat.mul_one]

/-- All places, when as many are selected as there are. -/
theorem places_whole {slabs : List Slab} (hInside : ∀ s ∈ slabs, s.Inside)
    (h : (slabs.map Slab.count).prod = (slabs.map Slab.dim).prod) :
      places slabs = List.range (slabs.map Slab.dim).prod := by
  have hAll := prod_eq_of_le hInside h
  have hCounts : slabs.map Slab.count = slabs.map Slab.dim := List.map_congr_left hAll
  have hAt : slabs.map Slab.indices = (slabs.map Slab.dim).map List.range := by
    rw [List.map_map]
    refine List.map_congr_left fun s hs => ?_
    have hSame : ∀ i ∈ List.range s.count, s.offset + i * s.step = i := fun i hi =>
      at_whole (hInside s hs) (hAll s hs) (List.mem_range.mp hi)
    rw [Slab.indices, List.map_congr_left hSame, List.map_id', hAll s hs, Function.comp_apply]
  have hPlace : ∀ k ∈ List.range (slabs.map Slab.dim).prod,
      (flat (slabs.map Slab.dim) ∘ indices (slabs.map Slab.dim)) k = k :=
        fun k hk => flat_indices (List.mem_range.mp hk)
  rw [places, hAt, tuples_range, List.map_map, List.map_congr_left hPlace, List.map_id']

end Libdap.Hdf5
