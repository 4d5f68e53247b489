import Libdap.Constraint.ArrayIndices
import Mathlib.Algebra.BigOperators.Group.List.Basic
import Mathlib.Algebra.Order.BigOperators.Group.List
import Mathlib.Data.Set.Card
import Mathlib.Tactic.Linarith

/-! # Which bracket indices leave a hyperslab of the array -/

namespace Libdap.Constraint
open Core Dap2
set_option autoImplicit false

theorem int32_mul_int32 (m n : Int) : int32 (int32 m * n) = int32 (m * n) := by
  have hMod : (int32 m * n + 2147483648) % 4294967296 = (m * n + 2147483648) % 4294967296 := by
    obtain ⟨k, hk⟩ : ∃ k, int32 m = m + 4294967296 * k := by
      refine ⟨-((m + 2147483648) / 4294967296), ?_⟩
      simp only [int32]
      omega
    rw [hk, Int.add_mul, Int.mul_assoc, Int.add_right_comm, Int.add_mul_emod_self_left]
  exact congrArg (· - 2147483648) hMod

/-- The indices start, start + stride, … that do not exceed stop. -/
def selected (d : Dimension) : Set Int :=
  {i | d.start ≤ i ∧ i ≤ d.stop ∧ d.stride ∣ i - d.start}

theorem ncard_selected {d : Dimension} (hOrder : d.start ≤ d.stop) (hStride : 0 < d.stride) :
    ((selected d).ncard : Int) = (d.stop - d.start) / d.stride + 1 := by
  have hNonneg : 0 ≤ (d.stop - d.start) / d.stride := Int.ediv_nonneg (by omega) (by omega)
  have hImage : selected d =
      ((Finset.range ((d.stop - d.start) / d.stride + 1).toNat).image fun k : Nat =>
        d.start + d.stride * k : Finset Int) := by
    ext i
    rw [Finset.mem_coe, Finset.mem_image]
    constructor
    · rintro ⟨hLow, hHigh, k, hk⟩
      have hk0 : 0 ≤ k := by
        by_contra hNeg
        have : d.stride * k < 0 := Int.mul_neg_of_pos_of_neg hStride (by omega)
        omega
      have hkLe : k ≤ (d.stop - d.start) / d.stride :=
        (Int.le_ediv_iff_mul_le hStride).mpr (by rw [Int.mul_comm]; omega)
      refine ⟨k.toNat, Finset.mem_range.mpr (by omega), ?_⟩
      rw [Int.toNat_of_nonneg hk0]
      omega
    · rintro ⟨k, hk, rfl⟩
      have hkLe : (k : Int) ≤ (d.stop - d.start) / d.stride := by
        have := Finset.mem_range.mp hk
        omega
      have hMul := (Int.le_ediv_iff_mul_le hStride).mp hkLe
      have hPos : 0 ≤ d.stride * (k : Int) := Int.mul_nonneg (by omega) (by omega)
      rw [Int.mul_comm] at hMul
      exact ⟨by omega, by omega, k, by omega⟩
  rw [hImage, Set.ncard_coe_finset, Finset.card_image_of_injective, Finset.card_range,
    Int.toNat_of_nonneg (by omega)]
  intro j k h
  have hMul : d.stride * (j : Int) = d.stride * k := by simpa using h
  exact_mod_cast Int.eq_of_mul_eq_mul_left (by omega) hMul

/-- The constraint on a dimension selects indices of the dimension, as many as it says. -/
structure IsHyperslab (d : Dimension) : Prop where
  start_nonneg : 0 ≤ d.start
  start_le_stop : d.start ≤ d.stop
  stop_lt_size : d.stop < d.size
  one_le_stride : 1 ≤ d.stride
  cSize_eq : d.cSize = (selected d).ncard
  inside : ∀ i ∈ selected d, 0 ≤ i ∧ i < d.size

/-- The constraints select elements of the array, and the length is their number. -/
def SelectsElements (a : Dap2.Array) : Prop :=
  (∀ d ∈ a.shape, IsHyperslab d) ∧ a.length = (a.shape.map Dimension.cSize).prod

def countIn (d : Dimension) (index : Index) : Int := (d.stopOf index.stop - index.start) / index.stride + 1

/-- The start is an index and not behind the stop. -/
def InOrder (d : Dimension) (index : Index) : Prop := 0 ≤ index.start ∧ index.start ≤ d.stopOf index.stop

instance (d : Dimension) (index : Index) : Decidable (InOrder d index) :=
  inferInstanceAs (Decidable (_ ∧ _))

theorem countOf_eq {d : Dimension} {index : Index} {sendP : Bool} (hSize : d.size ≤ INT_MAX)
    (hTakes : Takes sendP d index) (hOrder : InOrder d index) :
    Dimension.countOf index.start index.stride (d.stopOf index.stop) = countIn d index := by
  have hStop := hTakes.stop_lt
  obtain ⟨hLow, hHigh⟩ := hOrder
  have hSpan : 0 ≤ d.stopOf index.stop - index.start := by omega
  have hLe : (d.stopOf index.stop - index.start) / index.stride ≤ d.stopOf index.stop - index.start :=
    Int.ediv_le_self _ hSpan
  have hNonneg := Int.ediv_nonneg hSpan (Int.le_of_lt hTakes.stride_pos)
  simp only [INT_MAX] at hSize
  rw [Dimension.countOf, int32_of_bounds (n := d.stopOf index.stop - index.start) (by omega)
    (by simp only [INT_MAX]; omega), Int.tdiv_eq_ediv_of_nonneg hSpan,
    int32_of_bounds (by omega) (by simp only [INT_MAX]; omega)]
  rfl

theorem isHyperslab_iff {d : Dimension} {index : Index} {sendP : Bool} (hSize : d.size ≤ INT_MAX)
    (hTakes : Takes sendP d index) : IsHyperslab (constrainedBy d index) ↔ InOrder d index := by
  constructor
  · intro h
    exact ⟨h.start_nonneg, h.start_le_stop⟩
  · intro hOrder
    refine ⟨hOrder.1, hOrder.2, hTakes.stop_lt, hTakes.stride_pos, ?_, ?_⟩
    · rw [ncard_selected hOrder.2 hTakes.stride_pos]
      exact countOf_eq hSize hTakes hOrder
    · intro i hi
      exact ⟨Int.le_trans hOrder.1 hi.1, Int.lt_of_le_of_lt hi.2.1 hTakes.stop_lt⟩

theorem one_le_countIn {d : Dimension} {index : Index} {sendP : Bool} (hTakes : Takes sendP d index)
    (hOrder : InOrder d index) : 1 ≤ countIn d index := by
  have := Int.ediv_nonneg (Int.sub_nonneg.mpr hOrder.2) (Int.le_of_lt hTakes.stride_pos)
  rw [countIn]
  omega

theorem length_eq_int32 (a : Dap2.Array) :
    a.updateLength.length = int32 (a.shape.map Array.factor).prod := by
  have hFold : ∀ (ds : List Dimension) (l : Int),
      ds.foldl (fun length d => int32 (length * Array.factor d)) (int32 l) =
        int32 (l * (ds.map Array.factor).prod) := by
    intro ds
    induction ds with
    | nil =>
      intro l
      rw [List.map_nil, List.prod_nil, Int.mul_one]
      rfl
    | cons d ds ih =>
      intro l
      rw [List.foldl_cons, int32_mul_int32, ih, List.map_cons, List.prod_cons, Int.mul_assoc]
  have := hFold a.shape 1
  rwa [Int.one_mul] at this

/-- The dimensions of an array after indices in order: their counts are those of the indices. -/
theorem counts_of_inOrder {sendP : Bool} {ds : List Dimension} {indices : List Index}
    (hSizes : ∀ d ∈ ds, d.size ≤ INT_MAX) (hTakes : List.Forall₂ (Takes sendP) ds indices)
    (hOrder : List.Forall₂ InOrder ds indices) :
    (List.zipWith constrainedBy ds indices).map Dimension.cSize = List.zipWith countIn ds indices ∧
      (List.zipWith constrainedBy ds indices).map Array.factor = List.zipWith countIn ds indices ∧
      1 ≤ (List.zipWith countIn ds indices).prod := by
  induction hTakes with
  | nil => exact ⟨rfl, rfl, Int.le_refl 1⟩
  | @cons d index ds indices hTake _ ih =>
    cases hOrder with
    | cons hHead hTail =>
      obtain ⟨hCounts, hFactors, hProd⟩ := ih (fun e he => hSizes e (List.mem_cons_of_mem d he)) hTail
      have hCount : (constrainedBy d index).cSize = countIn d index :=
        countOf_eq (hSizes d List.mem_cons_self) hTake hHead
      have hOne := one_le_countIn hTake hHead
      have hFactor : Array.factor (constrainedBy d index) = countIn d index := by
        rw [Array.factor, hCount, if_pos (by omega)]
      refine ⟨?_, ?_, ?_⟩
      · rw [List.zipWith_cons_cons, List.zipWith_cons_cons, List.map_cons, hCounts, hCount]
      · rw [List.zipWith_cons_cons, List.zipWith_cons_cons, List.map_cons, hFactors, hFactor]
      · rw [List.zipWith_cons_cons, List.prod_cons]
        exact one_le_mul_of_one_le_of_one_le hOne hProd

theorem all_hyperslabs_iff {sendP : Bool} {ds : List Dimension} {indices : List Index}
    (hSizes : ∀ d ∈ ds, d.size ≤ INT_MAX) (hTakes : List.Forall₂ (Takes sendP) ds indices) :
    (∀ d ∈ List.zipWith constrainedBy ds indices, IsHyperslab d) ↔ List.Forall₂ InOrder ds indices := by
  induction hTakes with
  | nil => exact ⟨fun _ => .nil, fun _ _ h => nomatch h⟩
  | @cons d index ds indices hTake _ ih =>
    rw [List.zipWith_cons_cons, List.forall_mem_cons, List.forall₂_cons,
      isHyperslab_iff (hSizes d List.mem_cons_self) hTake,
      ih fun e he => hSizes e (List.mem_cons_of_mem d he)]

theorem selectsElements_iff {a a' : Dap2.Array} {indices : List Index} (hSome : indices ≠ [])
    (hSizes : ∀ d ∈ a.shape, d.size ≤ INT_MAX) (h : processArrayIndices indices a = .ok () a') :
    SelectsElements a' ↔ List.Forall₂ InOrder a.shape indices ∧
      (List.zipWith countIn a.shape indices).prod ≤ INT_MAX := by
  obtain ⟨hTakes, hEnd⟩ := processArrayIndices_ok h
  have hLength : a'.length = int32 (a'.shape.map Array.factor).prod := by
    rw [← length_eq_int32, hEnd.length_eq hSome]
  rw [SelectsElements, hLength, hEnd.shape_eq, all_hyperslabs_iff hSizes hTakes]
  apply and_congr_right
  intro hOrder
  obtain ⟨hCounts, hFactors, hProd⟩ := counts_of_inOrder hSizes hTakes hOrder
  rw [hCounts, hFactors]
  constructor
  · intro hEq
    rw [← hEq]
    exact (int32_bounds _).2
  · intro hFits
    exact int32_of_bounds (by omega) hFits

/-- The text consists of these bracket indices. -/
def IsText (text : Word) (indices : List ArrayIndex) : Prop :=
  indices ≠ [] ∧ scan text = .ok (indices.flatMap ArrayIndex.tokens)

instance (text : Word) (indices : List ArrayIndex) : Decidable (IsText text indices) :=
  inferInstanceAs (Decidable (_ ∧ _))

/-- The indices of a text, as the parser's actions apply them to an array. -/
def projectArray (indices : List ArrayIndex) : Call Dap2.Array Unit := fun a =>
  match arrayIndices indices with
  | .error f => .error f a
  | .ok values => processArrayIndices values a

/-- Either the parser throws an `Error`, or what it leaves are indices of the array. -/
def ErrorOrElements (a : Dap2.Array) (indices : List ArrayIndex) : Prop :=
  match projectArray indices a with
  | .error f _ => ∃ msg, f = .Error msg
  | .ok _ a' => SelectsElements a'

theorem action_throws {index : ArrayIndex} {f : Fault} (h : index.action = .error f) :
    ∃ msg, f = .Error msg := by
  cases index with
  | «at» n => exact (bind_eq_error h).elim ArrayIndex.checked_error fun ⟨_, _, h⟩ => nomatch h
  | star => cases h
  | range n m =>
    refine (bind_eq_error h).elim ArrayIndex.checked_error fun ⟨_, _, h⟩ => ?_
    exact (bind_eq_error h).elim ArrayIndex.checked_error fun ⟨_, _, h⟩ => nomatch h
  | rangeStar n => exact (bind_eq_error h).elim ArrayIndex.checked_error fun ⟨_, _, h⟩ => nomatch h
  | strided n s m =>
    refine (bind_eq_error h).elim ArrayIndex.checked_error fun ⟨_, _, h⟩ => ?_
    refine (bind_eq_error h).elim ArrayIndex.checked_error fun ⟨_, _, h⟩ => ?_
    exact (bind_eq_error h).elim ArrayIndex.checked_error fun ⟨_, _, h⟩ => nomatch h
  | stridedStar n s =>
    refine (bind_eq_error h).elim ArrayIndex.checked_error fun ⟨_, _, h⟩ => ?_
    exact (bind_eq_error h).elim ArrayIndex.checked_error fun ⟨_, _, h⟩ => nomatch h

theorem arrayIndices_throws {indices : List ArrayIndex} {f : Fault} (h : arrayIndices indices = .error f) :
    ∃ msg, f = .Error msg := by
  induction indices generalizing f with
  | nil => cases h
  | cons index indices ih =>
    rw [arrayIndices, List.mapM_cons] at h
    rcases bind_eq_error h with hHead | ⟨value, _, hTail⟩
    · exact action_throws hHead
    · rcases bind_eq_error hTail with hRest | ⟨values, _, hDone⟩
      · exact ih hRest
      · cases hDone

theorem arrayIndices_ne_nil {indices : List ArrayIndex} {values : List Index} (hSome : indices ≠ [])
    (h : arrayIndices indices = .ok values) : values ≠ [] := by
  cases indices with
  | nil => exact absurd rfl hSome
  | cons index indices =>
    rw [arrayIndices, List.mapM_cons] at h
    obtain ⟨value, _, hTail⟩ := bind_eq_ok h
    obtain ⟨rest, _, hDone⟩ := bind_eq_ok hTail
    cases hDone
    exact List.cons_ne_nil value rest

/-- Where the words are numbers and `add_constraint` takes them, the constraint is one of elements
of the array exactly when no start is negative or behind its stop and the number of the elements is
an `int`. -/
theorem error_or_elements (a : Dap2.Array) (hSizes : ∀ d ∈ a.shape, 1 ≤ d.size ∧ d.size ≤ INT_MAX)
    (text : Word) (indices : List ArrayIndex) (hText : IsText text indices) :
    ErrorOrElements a indices ↔
      ∀ values, arrayIndices indices = .ok values → List.Forall₂ (Takes a.sendP) a.shape values →
        List.Forall₂ InOrder a.shape values ∧ (List.zipWith countIn a.shape values).prod ≤ INT_MAX := by
  rw [ErrorOrElements, projectArray]
  cases hValues : arrayIndices indices with
  | error f =>
    constructor
    · intro _ _ h
      cases h
    · intro _
      exact arrayIndices_throws hValues
  | ok values =>
    have hSome := arrayIndices_ne_nil hText.1 hValues
    dsimp only
    cases hRun : processArrayIndices values a with
    | error f a' =>
      constructor
      · intro _ _ h hTakes
        cases h
        obtain ⟨a', hOk⟩ := processArrayIndices_of_takes hTakes
        rw [hRun] at hOk
        cases hOk
      · intro _
        exact processArrayIndices_throws values a a' f hRun
    | ok _ a' =>
      dsimp only
      rw [selectsElements_iff hSome (fun d hd => (hSizes d hd).2) hRun]
      constructor
      · intro h _ hSame _
        cases hSame
        exact h
      · intro h
        exact h values rfl (processArrayIndices_ok hRun).1

/-- A vector of ten elements, all of it selected. -/
def tenElements : Dap2.Array :=
  ⟨"a", [⟨10, "x", 0, 9, 1, 10⟩], 10, false⟩

theorem every_second_element : ErrorOrElements tenElements [.stridedStar ['1'] ['2']] := by
  refine (error_or_elements tenElements (by decide) "[1:2:*]".toList _ (by decide)).mpr ?_
  intro values hValues _
  cases hValues
  exact ⟨.cons (by decide) .nil, by decide⟩

/-- A start behind the stop is taken. -/
theorem reversed_range_taken :
    IsText "[5:1]".toList [.range ['5'] ['1']] ∧ ¬ ErrorOrElements tenElements [.range ['5'] ['1']] := by
  refine ⟨by decide, fun h => ?_⟩
  have hStop := (h.1 _ List.mem_cons_self).start_le_stop
  exact absurd hStop (by decide)

end Libdap.Constraint
