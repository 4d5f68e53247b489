import Libdap.Core.Scan
import Libdap.Dap2.Array
import Libdap.Dap2.Vector

/-! # Clauses on the maps of a Grid

A clause compares the values of a map with one number or with two, and keeps the first and the last index of the map at
which the comparisons hold. The numbers are `double`s, which are compared with the elements of the map as a parameter
says.
-/

namespace Libdap.Functions
open Core
open Dap2 (Dimension ElementType)
set_option autoImplicit false

inductive Relop
  | nop
  | equal
  | notEqual
  | greater
  | greaterEqual
  | less
  | lessEqual
  | regexp
  deriving DecidableEq, Repr

/-- How an element compares with a number; no two of them hold, and none where one of the two is not a number. -/
structure Order (T V : Type) where
  less : T → V → Bool
  equal : T → V → Bool
  greater : T → V → Bool

def compare {T V : Type} (ord : Order T V) (elem : T) (op : Relop) (value : V) : Except Fault Bool :=
  match op with
  | .greater => .ok (ord.greater elem value)
  | .greaterEqual => .ok (ord.greater elem value || ord.equal elem value)
  | .less => .ok (ord.less elem value)
  | .lessEqual => .ok (ord.less elem value || ord.equal elem value)
  | .equal => .ok (ord.equal elem value)
  | .notEqual => .ok (!ord.equal elem value)
  | .nop => .error (.Error "Attempt to use NOP in Grid selection.")
  | .regexp => .error (.Error "Unknown relational operator in Grid selection.")

/-- A map has one dimension; `values` are all of its elements. -/
structure GridMap (T : Type) where
  name : String
  type : ElementType
  dim : Dimension
  values : List T

structure GSEClause (V : Type) where
  mapName : String
  value1 : V
  value2 : V
  op1 : Relop
  op2 : Relop
  start : Int
  stop : Int
  mapMinValue : String
  mapMaxValue : String

section
variable {T V : Type} (ord : Order T V) (print : T → String)

/-- What was read: the elements that the constraint selects. -/
def GridMap.value (m : GridMap T) : List T :=
  (List.range (Dap2.Array.factor m.dim).toNat).filterMap fun (k : Nat) =>
    m.values[(m.dim.start + k * m.dim.stride).toNat]?

def fetch (vals : List T) (i : Int) : Except Fault T :=
  if i < 0 then .error .outOfBounds else element vals i.toNat

def holdsAt (vals : List T) (op : Relop) (value : V) (i : Nat) : Except Fault Bool := do
  compare ord (← element vals i) op value

def setStartStop (m : GridMap T) (c : GSEClause V) : Except Fault (GSEClause V) := do
  let vals := m.value
  let min ← fetch vals c.start
  let max ← fetch vals c.stop
  let range ← scanEnds (holdsAt ord vals c.op1 c.value1) c.start.toNat (c.stop + 1).toNat
  let range ← if c.op2 ≠ .nop then scanEnds (holdsAt ord vals c.op2 c.value2) range.1 range.2 else pure range
  pure { c with start := range.1, stop := range.2 - 1, mapMinValue := print min, mapMaxValue := print max }

def computeIndices (m : GridMap T) (c : GSEClause V) : Except Fault (GSEClause V) :=
  match m.type with
  | .cardinal _ => setStartStop ord print m c
  | _ => .error (.Error "Grid selection using non-numeric map vectors is not supported")

/-- The constructors, with what `Grid::var` finds by the name of the map; the one for a single operator leaves the second
one out. -/
def newClause (grid map : String) (found : Option (GridMap T)) (value1 : V) (op1 : Relop) (value2 : V) (op2 : Relop) :
    Except Fault (GSEClause V) :=
  match found with
  | none => .error (.Error ("The map variable '" ++ map ++ "' does not exist in the grid '" ++ grid ++ "'."))
  | some m => computeIndices ord print m ⟨m.name, value1, value2, op1, op2, m.dim.start, m.dim.stop, "", ""⟩

end

/-! ## What a clause should select -/

def Relop.comparison : Relop → Bool
  | .nop | .regexp => false
  | _ => true

/-- The dimension of a map under a constraint. -/
structure Current {T : Type} (m : GridMap T) : Prop where
  size : m.dim.size = m.values.length
  fits : m.dim.size ≤ INT_MAX
  start : 0 ≤ m.dim.start ∧ m.dim.start < m.dim.size
  stop : 0 ≤ m.dim.stop ∧ m.dim.stop < m.dim.size
  stride : 1 ≤ m.dim.stride
  count : m.dim.cSize = Dimension.countOf m.dim.start m.dim.stride m.dim.stop

section
variable {T V : Type} (ord : Order T V)

/-- The comparison holds for the value at an index. -/
def SatisfiedAt (m : GridMap T) (op : Relop) (value : V) (i : Int) : Prop :=
  ∃ x, m.values[i.toNat]? = some x ∧ compare ord x op value = .ok true

def InRange (m : GridMap T) (i : Int) : Prop := m.dim.start ≤ i ∧ i ≤ m.dim.stop

/-- An index in the range of the map whose value satisfies the comparisons. -/
def Selected (m : GridMap T) (op1 : Relop) (value1 : V) (op2 : Relop) (value2 : V) (i : Int) : Prop :=
  InRange m i ∧ SatisfiedAt ord m op1 value1 i ∧ (op2 ≠ .nop → SatisfiedAt ord m op2 value2 i)

/-- The smallest range with all of the indices, empty if there is none. -/
def SmallestRange (S : Int → Prop) (start stop : Int) : Prop :=
  (∀ i, S i → S start ∧ S stop ∧ ∀ k, S k → start ≤ k ∧ k ≤ stop) ∧ ((∀ i, ¬ S i) → stop < start)

def Enclosed (S : Int → Prop) (j : Int) : Prop := (∃ i, i ≤ j ∧ S i) ∧ ∃ k, j ≤ k ∧ S k

variable {ord} {m : GridMap T} {op : Relop} {value : V}

theorem compare_ok (h : op.comparison = true) (x : T) (value : V) : ∃ b, compare ord x op value = .ok b := by
  cases op with
  | nop => cases h
  | regexp => cases h
  | _ => exact ⟨_, rfl⟩

/-! ## The values that were read -/

theorem filterMap_range {n : Nat} {f : Nat → Option T} (h : ∀ k, k < n → f k ≠ none) {k : Nat} (hk : k < n) :
    ((List.range n).filterMap f)[k]? = f k := by
  have hLength (m : Nat) (hm : m ≤ n) : ((List.range m).filterMap f).length = m := by
    induction m with
    | zero => rfl
    | succ m ih =>
      obtain ⟨x, hx⟩ := Option.ne_none_iff_exists'.mp (h m (by omega))
      rw [List.range_succ, List.filterMap_append, List.length_append, ih (by omega), List.filterMap_cons_some hx]
      rfl
  induction n with
  | zero => omega
  | succ n ih =>
    obtain ⟨x, hx⟩ := Option.ne_none_iff_exists'.mp (h n (Nat.lt_succ_self n))
    rw [List.range_succ, List.filterMap_append, List.filterMap_cons_some hx, List.filterMap_nil]
    rcases Nat.lt_succ_iff_lt_or_eq.mp hk with hk | rfl
    · rw [List.getElem?_append_left (by rw [hLength n (by omega)]; exact hk)]
      exact ih (fun k hk => h k (by omega)) hk fun m hm => hLength m (by omega)
    · have hLen := hLength k (by omega)
      rw [List.getElem?_append_right (by omega), hLen, Nat.sub_self, hx]
      rfl

theorem count_forward (h : Current m) (hLe : m.dim.start ≤ m.dim.stop) :
    m.dim.cSize = (m.dim.stop - m.dim.start) / m.dim.stride + 1 ∧
      0 ≤ (m.dim.stop - m.dim.start) / m.dim.stride ∧
        (m.dim.stop - m.dim.start) / m.dim.stride ≤ m.dim.stop - m.dim.start := by
  have hStart := h.start
  have hStop := h.stop
  have hFits := h.fits
  have hStride := h.stride
  have hInt : INT_MAX = 2147483647 := rfl
  have hLow := Int.ediv_nonneg (sub_nonneg.mpr hLe) (by omega : 0 ≤ m.dim.stride)
  have hHigh := Int.ediv_le_self m.dim.stride (sub_nonneg.mpr hLe)
  rw [h.count, Dimension.countOf, int32_of_bounds (n := m.dim.stop - m.dim.start) (by omega) (by omega),
    Int.tdiv_eq_ediv_of_nonneg (sub_nonneg.mpr hLe), int32_of_bounds (by omega) (by omega)]
  exact ⟨rfl, hLow, hHigh⟩

theorem count_backward (h : Current m) (hLt : m.dim.stop < m.dim.start) : m.dim.cSize ≤ 1 := by
  have hStart := h.start
  have hStop := h.stop
  have hFits := h.fits
  have hStride := h.stride
  have hInt : INT_MAX = 2147483647 := rfl
  have hLow := Int.ediv_nonneg (by omega : 0 ≤ m.dim.start - m.dim.stop) (by omega : 0 ≤ m.dim.stride)
  have hHigh := Int.ediv_le_self m.dim.stride (by omega : 0 ≤ m.dim.start - m.dim.stop)
  have hDiff : m.dim.stop - m.dim.start = -(m.dim.start - m.dim.stop) := by omega
  rw [h.count, Dimension.countOf, int32_of_bounds (n := m.dim.stop - m.dim.start) (by omega) (by omega), hDiff,
    Int.neg_tdiv, Int.tdiv_eq_ediv_of_nonneg (by omega), int32_of_bounds (by omega) (by omega)]
  omega

/-- What was read has an element for each position that the scans look at. -/
def WholeFront (m : GridMap T) : Prop := m.dim.start = 0 ∧ (m.dim.stride = 1 ∨ m.dim.stop = 0)

theorem value_short (h : Current m) (hNot : ¬ WholeFront m) :
    m.value.length ≤ m.dim.start.toNat ∨ m.value.length ≤ m.dim.stop.toNat := by
  have hStart := h.start
  have hStop := h.stop
  have hStride := h.stride
  have hLength : m.value.length ≤ (Dap2.Array.factor m.dim).toNat := by
    rw [GridMap.value]
    exact (List.length_filterMap_le _ _).trans_eq List.length_range
  have hFactor : Dap2.Array.factor m.dim ≤ m.dim.start ∨ Dap2.Array.factor m.dim ≤ m.dim.stop := by
    rw [Dap2.Array.factor]
    by_cases hLe : m.dim.start ≤ m.dim.stop
    · obtain ⟨hCount, hLow, hHigh⟩ := count_forward h hLe
      rw [if_pos (by omega), hCount]
      by_cases hZero : m.dim.start = 0
      · have hLarge : 1 ≤ m.dim.stop ∧ 2 ≤ m.dim.stride := by
          rw [WholeFront, and_iff_right hZero, not_or] at hNot
          omega
        have hLess : (m.dim.stop - m.dim.start) / m.dim.stride < m.dim.stop := by
          apply Int.ediv_lt_of_lt_mul (by omega)
          nlinarith
        right
        omega
      · right
        omega
    · have hCount := count_backward h (by omega)
      left
      split <;> omega
  omega

theorem value_front (h : Current m) (hFront : WholeFront m) {k : Nat} (hk : (k : Int) ≤ m.dim.stop) :
    m.value[k]? = m.values[k]? := by
  obtain ⟨hStart, hWhole⟩ := hFront
  have hStop := h.stop
  have hSize := h.size
  obtain ⟨hCount, hLow, -⟩ := count_forward h (by omega)
  have hFactor : (Dap2.Array.factor m.dim).toNat = (m.dim.stop / m.dim.stride + 1).toNat := by
    rw [Dap2.Array.factor, if_pos (by omega), hCount, hStart, sub_zero]
  rw [GridMap.value, hFactor]
  rcases hWhole with hStride | hZero
  · rw [hStride, Int.ediv_one, hStart]
    rw [filterMap_range (k := k) _ (by omega)]
    · congr 1
      omega
    · intro j hj
      rw [List.getElem?_eq_getElem (by omega)]
      exact Option.some_ne_none _
  · rw [hZero] at hk ⊢
    obtain rfl : k = 0 := by omega
    rw [Int.zero_ediv, hStart]
    rw [filterMap_range _ (by decide)]
    · simp
    · intro j hj
      obtain rfl : j = 0 := by omega
      rw [List.getElem?_eq_getElem (by simp; omega)]
      exact Option.some_ne_none _

/-! ## The scans -/

/-- Whether the comparison holds at an index. -/
def holds (ord : Order T V) (values : List T) (op : Relop) (value : V) (k : Nat) : Bool :=
  match values[k]? with
  | none => false
  | some x =>
    match compare ord x op value with
    | .ok b => b
    | .error _ => false

theorem holds_iff (ord : Order T V) (m : GridMap T) (op : Relop) (value : V) (k : Nat) :
    holds ord m.values op value k = true ↔ SatisfiedAt ord m op value k := by
  rw [holds, SatisfiedAt, Int.toNat_natCast]
  cases m.values[k]? with
  | none => exact iff_of_false Bool.false_ne_true fun ⟨_, hx, _⟩ => by cases hx
  | some x =>
    constructor
    · intro h
      refine ⟨x, rfl, ?_⟩
      dsimp only at h
      split at h
      · rename_i b hCompare
        rw [hCompare, h]
      · cases h
    · rintro ⟨_, hx, hCompare⟩
      cases hx
      dsimp only
      rw [hCompare]

theorem holdsAt_ok (h : Current m) (hFront : WholeFront m) (hOp : op.comparison = true) {k : Nat}
    (hk : (k : Int) ≤ m.dim.stop) :
    holdsAt ord m.value op value k = .ok (holds ord m.values op value k) := by
  have hSize := h.size
  have hStop := h.stop
  have hLess : k < m.values.length := by omega
  have hElement : element m.value k = .ok m.values[k] := by
    rw [element, value_front h hFront hk, List.getElem?_eq_getElem hLess]
  obtain ⟨b, hCompare⟩ : ∃ b, compare ord m.values[k] op value = .ok b := compare_ok hOp _ _
  rw [holdsAt, hElement, ok_bind, holds, List.getElem?_eq_getElem hLess]
  simp only [hCompare]

/-! Indices as integers and as natural numbers. -/

theorem smallestRange_iff {S : Int → Prop} (S' : Nat → Prop) (hS : ∀ i, S i ↔ 0 ≤ i ∧ S' i.toNat) (first last : Nat) :
    SmallestRange S first (last - 1) ↔ Hull S' first last := by
  have hNat (k : Nat) : S k ↔ S' k := by
    rw [hS, Int.toNat_natCast]
    exact and_iff_right (Int.natCast_nonneg k)
  constructor
  · rintro ⟨hFound, hNone⟩
    constructor
    · intro i hi
      obtain ⟨hFirst, hLast, hAll⟩ := hFound i ((hNat i).mpr hi)
      obtain ⟨hPos, hLast⟩ := (hS _).mp hLast
      have hSame : ((last : Int) - 1).toNat = last - 1 := by omega
      rw [hSame] at hLast
      refine ⟨(hNat first).mp hFirst, hLast, ?_, ?_⟩
      · have hBoth := hAll i ((hNat i).mpr hi)
        omega
      · intro k hk
        have hBoth := hAll k ((hNat k).mpr hk)
        omega
    · intro hEmpty
      have hLess := hNone fun i hi => hEmpty _ ((hS i).mp hi).2
      omega
  · intro h
    constructor
    · intro i hi
      obtain ⟨hPos, hi⟩ := (hS i).mp hi
      obtain ⟨hFirst, hLast, hLess, hAll⟩ := h.found _ hi
      refine ⟨(hNat first).mpr hFirst, ?_, ?_⟩
      · have hSame : ((last : Int) - 1).toNat = last - 1 := by omega
        rw [hS, hSame]
        exact ⟨by omega, hLast⟩
      · intro k hk
        obtain ⟨hPos, hk⟩ := (hS k).mp hk
        have hBoth := hAll _ hk
        omega
    · intro hEmpty
      have hLe := h.none fun k hk => hEmpty k ((hNat k).mpr hk)
      omega

theorem enclosed_iff {S : Int → Prop} (S' : Nat → Prop) (hS : ∀ i, S i ↔ 0 ≤ i ∧ S' i.toNat) (j : Nat) :
    Enclosed S j ↔ Between S' j := by
  constructor
  · rintro ⟨⟨i, hi, hi'⟩, k, hk, hk'⟩
    obtain ⟨hPos, hi'⟩ := (hS i).mp hi'
    obtain ⟨-, hk'⟩ := (hS k).mp hk'
    exact ⟨⟨i.toNat, by omega, hi'⟩, k.toNat, by omega, hk'⟩
  · rintro ⟨⟨i, hi, hi'⟩, k, hk, hk'⟩
    have hNat (k : Nat) (h : S' k) : S k := by
      rw [hS, Int.toNat_natCast]
      exact ⟨Int.natCast_nonneg k, h⟩
    exact ⟨⟨i, by omega, hNat i hi'⟩, k, by omega, hNat k hk'⟩

section
variable {op1 op2 : Relop} {value1 value2 : V}

theorem first_iff (hFront : WholeFront m) (op : Relop) (value : V) (i : Int) :
    InRange m i ∧ SatisfiedAt ord m op value i ↔
      0 ≤ i ∧ i.toNat < (m.dim.stop + 1).toNat ∧ holds ord m.values op value i.toNat = true := by
  rw [InRange, hFront.1, holds_iff]
  constructor
  · rintro ⟨⟨hLow, hHigh⟩, hAt⟩
    rw [Int.toNat_of_nonneg hLow]
    exact ⟨hLow, by omega, hAt⟩
  · rintro ⟨hLow, hHigh, hAt⟩
    rw [Int.toNat_of_nonneg hLow] at hAt
    exact ⟨⟨hLow, by omega⟩, hAt⟩

theorem selected_iff (op1 : Relop) (value1 value2 : V) (hFront : WholeFront m) (hSecond : op2 ≠ .nop) (i : Int) :
    Selected ord m op1 value1 op2 value2 i ↔ 0 ≤ i ∧ i.toNat < (m.dim.stop + 1).toNat ∧
      holds ord m.values op1 value1 i.toNat = true ∧ holds ord m.values op2 value2 i.toNat = true := by
  rw [Selected, ← and_assoc, first_iff hFront, forall_prop_of_true hSecond, holds_iff _ _ op2, and_assoc, and_assoc]
  constructor
  · rintro ⟨hLow, hHigh, hFirst, hAt⟩
    rw [Int.toNat_of_nonneg hLow]
    exact ⟨hLow, hHigh, hFirst, hAt⟩
  · rintro ⟨hLow, hHigh, hFirst, hAt⟩
    rw [Int.toNat_of_nonneg hLow] at hAt
    exact ⟨hLow, hHigh, hFirst, hAt⟩

/-- The scans go outside what was read unless the constraint selects a whole front of the map. -/
theorem setStartStop_short (print : T → String) (h : Current m) (hNot : ¬ WholeFront m) {c : GSEClause V}
    (hStart : c.start = m.dim.start) (hStop : c.stop = m.dim.stop) (c' : GSEClause V) :
    setStartStop ord print m c ≠ .ok c' := by
  intro hRun
  have hOutside {i : Int} (hi : m.value.length ≤ i.toNat) (x : T) : fetch m.value i ≠ .ok x := by
    intro hFetch
    rw [fetch] at hFetch
    split at hFetch
    · cases hFetch
    · rw [element, List.getElem?_eq_none hi] at hFetch
      cases hFetch
  obtain ⟨first, hFirst, hRun⟩ := bind_eq_ok hRun
  obtain ⟨last, hLast, -⟩ := bind_eq_ok hRun
  rw [hStart] at hFirst
  rw [hStop] at hLast
  rcases value_short h hNot with hLength | hLength
  · exact hOutside hLength first hFirst
  · exact hOutside hLength last hLast

theorem fetch_front (h : Current m) (hFront : WholeFront m) {i : Int} (hLow : 0 ≤ i) (hHigh : i ≤ m.dim.stop) :
    ∃ x, fetch m.value i = .ok x := by
  have hSize := h.size
  have hStop := h.stop
  refine ⟨m.values.get ⟨i.toNat, by omega⟩, ?_⟩
  rw [fetch, if_neg (not_lt.mpr hLow), element, value_front h hFront (by omega), List.getElem?_eq_getElem (by omega)]
  rfl

/-- The clause has the smallest range if a whole front of the map was read, and if every index at which the second
comparison holds between two at which the first one does lies between two at which both do. -/
theorem clause_iff (print : T → String) (grid map : String) {t : Dap2.Numeric} (hType : m.type = .cardinal t)
    (h : Current m) (hFirst : op1.comparison = true) (hSecond : op2 = .nop ∨ op2.comparison = true) :
    (∃ c, newClause ord print grid map (some m) value1 op1 value2 op2 = .ok c ∧
      SmallestRange (Selected ord m op1 value1 op2 value2) c.start c.stop) ↔
    WholeFront m ∧ (op2 ≠ .nop → ∀ j, SatisfiedAt ord m op2 value2 j →
      Enclosed (fun i => InRange m i ∧ SatisfiedAt ord m op1 value1 i) j →
        Enclosed (Selected ord m op1 value1 op2 value2) j) := by
  rw [newClause, computeIndices, hType]
  dsimp only
  by_cases hFront : WholeFront m
  swap
  · refine iff_of_false ?_ fun hBoth => hFront hBoth.1
    rintro ⟨c, hRun, -⟩
    exact setStartStop_short print h hFront rfl rfl c hRun
  rw [and_iff_right hFront]
  have hStop := h.stop
  obtain ⟨min, hMin⟩ := fetch_front h hFront (Int.le_refl 0) hStop.1
  obtain ⟨max, hMax⟩ := fetch_front h hFront hStop.1 (Int.le_refl _)
  have hTest {op : Relop} (value : V) (hOp : op.comparison = true) {behind : Nat}
      (hBehind : behind ≤ (m.dim.stop + 1).toNat) :
      ∀ k, k < behind → holdsAt ord m.value op value k = .ok (holds ord m.values op value k) :=
    fun k hk => holdsAt_ok h hFront hOp (by omega)
  obtain ⟨first, last, hScan, hEnds⟩ := scanEnds_ok 0 (hTest value1 hFirst (Nat.le_refl _))
  rw [setStartStop]
  dsimp only
  rw [hFront.1, hMin, ok_bind, hMax, ok_bind, Int.toNat_zero, hScan, ok_bind]
  have hResult (range : Nat × Nat) (S : Int → Prop) :
      (∃ c, (pure ⟨m.name, value1, value2, op1, op2, range.1, range.2 - 1, print min, print max⟩ :
        Except Fault (GSEClause V)) = .ok c ∧ SmallestRange S c.start c.stop) ↔
      SmallestRange S range.1 (range.2 - 1) := by
    constructor
    · rintro ⟨c, hRun, hRange⟩
      cases hRun
      exact hRange
    · intro hRange
      exact ⟨_, rfl, hRange⟩
  by_cases hNop : op2 = .nop
  · rw [if_neg (not_not.mpr hNop)]
    refine iff_of_true ((hResult (first, last) _).mpr ?_) fun hNot => absurd hNop hNot
    refine (smallestRange_iff _ (fun i => ?_) first last).mpr hEnds.hull
    rw [← first_iff hFront, Selected]
    constructor
    · rintro ⟨hRange, hAt, -⟩
      exact ⟨hRange, hAt⟩
    · rintro ⟨hRange, hAt⟩
      exact ⟨hRange, hAt, fun hNot => absurd hNop hNot⟩
  · obtain ⟨first', last', hScan', hEnds'⟩ :=
      scanEnds_ok first (hTest value2 (hSecond.resolve_left hNop) hEnds.le)
    rw [if_pos hNop, hScan', ok_bind, forall_prop_of_true hNop]
    refine (hResult (first', last') _).trans ?_
    let both (k : Nat) : Prop := k < (m.dim.stop + 1).toNat ∧ holds ord m.values op1 value1 k = true ∧
      holds ord m.values op2 value2 k = true
    let one (k : Nat) : Prop := k < (m.dim.stop + 1).toNat ∧ holds ord m.values op1 value1 k = true
    have hBoth := enclosed_iff both (selected_iff op1 value1 value2 hFront hNop)
    have hOne := enclosed_iff one (first_iff hFront op1 value1)
    rw [smallestRange_iff both (selected_iff op1 value1 value2 hFront hNop), hEnds.hull_iff hEnds']
    constructor
    · intro hAll j hAt hEnclosed
      -- an index that is enclosed is not negative
      obtain ⟨k, rfl⟩ : ∃ k : Nat, j = k := by
        obtain ⟨⟨i, hi, hRange, -⟩, -⟩ := hEnclosed
        rw [InRange, hFront.1] at hRange
        exact ⟨j.toNat, by omega⟩
      rw [hBoth]
      exact hAll k ((holds_iff _ _ _ _ _).mpr hAt) ((hOne k).mp hEnclosed)
    · intro hAll k hAt hBetween
      rw [← hBoth]
      exact hAll k ((holds_iff _ _ _ _ _).mp hAt) ((hOne k).mpr hBetween)

end

end

end Libdap.Functions
