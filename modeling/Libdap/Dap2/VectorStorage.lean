import Libdap.Dap2.Vector

/-! # What a Vector has storage for

The capacity that a Vector keeps is backed by storage, and once its values are set there is an element for each of
its length, as long as no capacity is recorded that was not made.
-/

namespace Libdap.Dap2
open Core
set_option autoImplicit false

/-! ## Runs -/

/-- A Vector, and whether its values have been set. -/
structure Tracked where
  vector : Vector
  set : Bool
  deriving DecidableEq, Repr

inductive VectorOp
  | reserveValueCapacity (n : Nat)
  | setValue (t : Numeric) (val : Bool) (sz : Int)
  | setValueStr (val : Bool) (sz : Int)
  | setVec (i : Nat) (val : Option ElementType)
  | vecResize (l : Int)
  | setLength (l : Int)
  | val2buf (val : Option Nat) (reuse : Bool)
  | deserialize (um : Incoming) (reuse : Bool)
  | clearLocalData
  | assign (rhs : Tracked)
  | setValueSlice (src : Tracked) (startElement : Nat)

namespace Vector

/-- The number of elements that the storage in use has room for. -/
def elements (v : Vector) : Option Nat :=
  match v.var with
  | none => none
  | some (.cardinal t) => v.buf.map (· / t.width)
  | some e => if e.string = true then some v.str else some v.vec.length

def numeric (v : Vector) : Bool :=
  match v.var with
  | some (.cardinal _) => true
  | _ => false

def compound (v : Vector) : Bool := v.var.any ElementType.compound

end Vector

namespace VectorOp

/-- The other Vector of the operation. -/
def other : VectorOp → Option Tracked
  | assign rhs => some rhs
  | setValueSlice src _ => some src
  | _ => none

/-- The operation, with what becomes of the values: set, gone, or as before. -/
def call : VectorOp → Call Vector (Option Bool)
  | reserveValueCapacity n => do
    Vector.reserveValueCapacity n
    pure (if (← get).numeric then some false else none)
  | setValue t val sz => do
    let done ← Vector.setValue t val sz
    pure (if done then some true else none)
  | setValueStr val sz => do
    let done ← Vector.setValueStr val sz
    pure (if done then some true else none)
  | setVec i val => do
    Vector.setVec i val
    pure none
  | vecResize l => do
    Vector.vecResize l
    pure none
  | setLength l => do
    Vector.setLength l
    pure none
  | val2buf val reuse => do
    Vector.val2buf val reuse
    pure (some true)
  | deserialize um reuse => do
    Vector.deserialize um reuse
    pure (some true)
  | clearLocalData => do
    Vector.clearLocalData
    pure (some false)
  | assign rhs => do
    Vector.assign rhs.vector
    pure (some rhs.set)
  | setValueSlice src startElement => do
    let _ ← Vector.setValueSliceFromRowMajorVector src.vector startElement
    pure none

/-- Whether an exception may leave the values half replaced. -/
def replaces : VectorOp → Bool
  | deserialize _ _ => true
  | assign _ => true
  | _ => false

def after (op : VectorOp) (k : Tracked) : Option Tracked :=
  match op.call k.vector with
  | .ok r v => some ⟨v, r.getD k.set⟩
  | .error .outOfBounds _ => none
  | .error .undefined _ => none
  | .error _ v => some ⟨v, k.set && !op.replaces⟩

end VectorOp

/-- The states that a Vector can get into, with other such Vectors beside it. -/
inductive VectorReached (allowed : Tracked → VectorOp → Prop) : Tracked → Prop
  | new (var : Option ElementType) : VectorReached allowed ⟨Vector.new var, false⟩
  | step {k k' : Tracked} (op : VectorOp) (h : VectorReached allowed k)
    (hOther : ∀ o ∈ op.other, VectorReached allowed o)
    (hAllowed : allowed k op) (hAfter : op.after k = some k') : VectorReached allowed k'

/-! ## The condition -/

/-- Storage is left alone, or made as it is recorded. -/
def AllowedOp (k : Tracked) : VectorOp → Prop
  | .reserveValueCapacity n =>
    (∀ t, k.vector.var = some (.cardinal t) → t.width * n < 4294967296) ∧
      (k.vector.numeric = false → ∀ m ∈ k.vector.elements, n ≤ m)
  | .setValue t _ sz => (t.width : Int) * sz < 4294967296
  | .setVec i _ =>
    (i < k.vector.room ∧ i < k.vector.vec.length) ∨
      (k.vector.room ≤ i ∧ i + 10 < 2147483648 ∧ (k.vector.compound = false → ∀ m ∈ k.vector.elements, i + 10 ≤ m))
  | .vecResize l =>
    0 ≤ l ∧ l < 2147483648 ∧
      (k.vector.compound = false → ∀ m ∈ k.vector.elements, l ≤ m) ∧
      (k.set = true → k.vector.compound = true → k.vector.length ≤ l)
  | .setLength l => k.set = true → ∀ m ∈ k.vector.elements, int32 l ≤ m
  | .val2buf val reuse =>
    (∀ t, k.vector.var = some (.cardinal t) →
      0 ≤ k.vector.length ∧ k.vector.length * t.width < 4294967296 ∧
        (∀ n ∈ val, k.vector.length * t.width ≤ (n : Int)) ∧
        (reuse = true → ∀ n ∈ k.vector.buf, k.vector.length * t.width ≤ (n : Int))) ∧
      (k.vector.numeric = false → ∀ n ∈ val, k.vector.length ≤ (n : Int))
  | .deserialize um reuse =>
    ∀ num ∈ um.num, num < 2147483648 ∧
      ∀ t, k.vector.var = some (.cardinal t) →
        num * t.width < 4294967296 ∧ (reuse = true → ∀ n ∈ k.vector.buf, num * t.width ≤ n)
  | .assign rhs =>
    (rhs.vector.vec ≠ [] → rhs.vector.length ≤ (rhs.vector.vec.length : Int) ∧ 0 ≤ rhs.vector.length) ∧
      (rhs.vector.vec ≠ [] → rhs.vector.compound = true → (rhs.vector.capacity : Int) ≤ rhs.vector.length) ∧
      ∀ t, rhs.vector.var = some (.cardinal t) → ∀ n ∈ rhs.vector.buf,
        0 ≤ rhs.vector.length ∧ rhs.vector.length * t.width ≤ (n : Int) ∧
          (rhs.vector.capacity : Int) ≤ rhs.vector.length
  | .setValueSlice src startElement =>
    startElement + src.vector.length < 4294967296 ∧
      ∀ t, src.vector.var = some (.cardinal t) → src.vector.length * t.width < 2147483648
  | _ => True

/-! ## The invariant -/

/-- What the storage is said to hold, it holds. -/
structure Backed (v : Vector) (set : Bool) : Prop where
  capacity : ∀ n ∈ v.elements, v.capacity ≤ n
  values : set = true → ∃ n ∈ v.elements, v.length ≤ (n : Int)
  numeric : v.buf.isSome = true → v.numeric = true
  small : ∀ n ∈ v.buf, n < 4294967296
  room : v.vec.length ≤ v.room
  int : InInt v.length

/-- What an exception leaves. -/
def Left (set : Bool) (f : Fault) (v : Vector) : Prop := f ≠ .outOfBounds ∧ (f ≠ .undefined → Backed v set)

/-- How an operation may end. -/
def Safe (x : Call Vector (Option Bool)) (v : Vector) (set replaces : Bool) : Prop :=
  Call.Ends x v (fun r v' => Backed v' (r.getD set)) (Left (set && !replaces))

section
variable {v : Vector} {set replaces : Bool} {t : Numeric} {α : Type} {Q : Unit → Vector → Prop} {E : Fault → Vector →
  Prop}

theorem safe_bind {x : Call Vector α} {r : α → Option Bool}
    (h : Call.Ends x v (fun a v' => Backed v' ((r a).getD set)) (Left (set && !replaces))) :
    Safe (x >>= fun a => pure (r a)) v set replaces :=
  h.bind fun _ _ hQ => hQ

theorem numeric_width_pos (t : Numeric) : 0 < t.width := by cases t <;> decide

theorem elements_numeric (h : v.var = some (.cardinal t)) : v.elements = v.buf.map (· / t.width) := by
  rw [Vector.elements, h]

theorem elements_string {e : ElementType} (h : v.var = some e) (hString : e.string = true) :
    v.elements = some v.str := by
  rw [Vector.elements, h]
  cases e with
  | str | url => rfl
  | _ => cases hString

theorem elements_compound (h : v.compound = true) : v.elements = some v.vec.length := by
  rw [Vector.compound] at h
  rw [Vector.elements]
  cases hVar : v.var with
  | none =>
    rw [hVar] at h
    cases h
  | some e =>
    rw [hVar] at h
    cases e with
    | array | struct | sequence | grid => rfl
    | _ => cases h

/-- A block for so many elements. -/
theorem backed_buffer {n : Nat} (hVar : v.var = some (.cardinal t)) (hBuf : v.buf = some n) (hSmall : n < 4294967296)
    (hCapacity : v.capacity * t.width ≤ n) (hValues : set = true → v.length * t.width ≤ (n : Int))
    (hRoom : v.vec.length ≤ v.room) (hInt : InInt v.length) : Backed v set where
  capacity m hm := by
    rw [elements_numeric hVar, hBuf] at hm
    cases hm
    exact (Nat.le_div_iff_mul_le (numeric_width_pos t)).mpr hCapacity
  values hSet := by
    refine ⟨n / t.width, by rw [elements_numeric hVar, hBuf]; rfl, ?_⟩
    have hLe := Int.le_ediv_of_mul_le (by exact_mod_cast numeric_width_pos t) (hValues hSet)
    simpa using hLe
  numeric _ := by rw [Vector.numeric, hVar]
  small m hm := by
    rw [hBuf] at hm
    cases hm
    exact hSmall
  room := hRoom
  int := hInt

/-- Without a block, no values are set in a Vector of a numeric type. -/
theorem backed_none (hVar : v.var = some (.cardinal t)) (hBuf : v.buf = none) (hRoom : v.vec.length ≤ v.room)
    (hInt : InInt v.length) : Backed v false where
  capacity m hm := by
    rw [elements_numeric hVar, hBuf] at hm
    cases hm
  values hSet := by cases hSet
  numeric hSome := by
    rw [hBuf] at hSome
    cases hSome
  small m hm := by
    rw [hBuf] at hm
    cases hm
  room := hRoom
  int := hInt

theorem backed_string {e : ElementType} (hVar : v.var = some e) (hString : e.string = true) (hBuf : v.buf = none)
    (hCapacity : v.capacity ≤ v.str) (hValues : set = true → v.length ≤ (v.str : Int)) (hRoom : v.vec.length ≤ v.room)
    (hInt : InInt v.length) : Backed v set where
  capacity m hm := by
    rw [elements_string hVar hString] at hm
    cases hm
    exact hCapacity
  values hSet := ⟨v.str, elements_string hVar hString, hValues hSet⟩
  numeric hSome := by
    rw [hBuf] at hSome
    cases hSome
  small m hm := by
    rw [hBuf] at hm
    cases hm
  room := hRoom
  int := hInt

theorem backed_compound (hVar : v.compound = true) (hBuf : v.buf = none) (hCapacity : v.capacity ≤ v.vec.length)
    (hValues : set = true → v.length ≤ (v.vec.length : Int)) (hRoom : v.vec.length ≤ v.room) (hInt : InInt v.length) :
    Backed v set where
  capacity m hm := by
    rw [elements_compound hVar] at hm
    cases hm
    exact hCapacity
  values hSet := ⟨v.vec.length, elements_compound hVar, hValues hSet⟩
  numeric hSome := by
    rw [hBuf] at hSome
    cases hSome
  small m hm := by
    rw [hBuf] at hm
    cases hm
  room := hRoom
  int := hInt

theorem Backed.weaken (h : Backed v set) : Backed v false := ⟨h.capacity, nofun, h.numeric, h.small, h.room, h.int⟩

theorem left_of_backed {f : Fault} (h : Backed v set) (hNot : f ≠ .outOfBounds) : Left set f v := ⟨hNot, fun _ => h⟩

theorem left_undefined : Left set .undefined v := ⟨by simp, fun h => absurd rfl h⟩

theorem left_keeps {f : Fault} (h : Left set f v) : Left (set && !false) f v := by
  rwa [Bool.not_false, Bool.and_true]

/-! ## The operations -/

theorem uint32_small {n : Int} (hLow : 0 ≤ n) (hHigh : n < 4294967296) : uint32 n = n.toNat := by
  have h := uint32_of_bounds hLow hHigh
  omega

theorem uint32_lt (n : Int) : uint32 n < 4294967296 := by
  simp only [uint32]
  omega

/-- Of a type that is not numeric there is no block. -/
theorem Backed.no_buffer (h : Backed v set) (hVar : v.numeric = false) : v.buf = none := by
  cases hBuf : v.buf with
  | none => rfl
  | some n =>
    have hNumeric := h.numeric (by rw [hBuf]; rfl)
    rw [hVar] at hNumeric
    cases hNumeric

/-- Another capacity within the storage. -/
theorem Backed.with_capacity (h : Backed v set) {n room : Nat} (hFits : ∀ m ∈ v.elements, n ≤ m)
    (hRoom : v.room ≤ room) :
    Backed { v with capacity := n, room := room } set :=
  ⟨hFits, h.values, h.numeric, h.small, h.room.trans hRoom, h.int⟩

/-- A new block. -/
theorem backed_newBuffer {n : Nat} (hVar : v.var = some (.cardinal t)) (hSmall : t.width * n < 4294967296)
    (hValues : set = true → v.length ≤ (n : Int)) (hRoom : v.vec.length ≤ v.room) (hInt : InInt v.length) :
    Backed (v.newBuffer t n) set := by
  have hBytes : uint32 (t.width * n) = t.width * n := by
    rw [uint32_small (by positivity) (by exact_mod_cast hSmall)]
    exact Int.toNat_natCast (t.width * n)
  refine backed_buffer ((Vector.newBuffer_var t n v).trans hVar) (congrArg some hBytes) hSmall ?_ ?_
    (by simpa using hRoom) ((Vector.newBuffer_length t n v).symm ▸ hInt)
  · exact Nat.le_of_eq (Nat.mul_comm n t.width)
  · intro hSet
    rw [Vector.newBuffer_length, Nat.cast_mul, Int.mul_comm (t.width : Int)]
    exact Int.mul_le_mul_of_nonneg_right (hValues hSet) (Int.natCast_nonneg _)

theorem numeric_of_var (hVar : v.var = some (.cardinal t)) : v.numeric = true := by rw [Vector.numeric, hVar]

theorem not_numeric_of_var {e : ElementType} (hVar : v.var = some e) (h : e.string = true ∨ e.compound = true) :
    v.numeric = false := by
  rw [Vector.numeric, hVar]
  cases e with
  | cardinal t => simp [ElementType.string, ElementType.compound] at h
  | _ => rfl

theorem reserve_eq_create (hVar : v.var = some (.cardinal t)) (n : Nat) :
    Vector.reserveValueCapacity n v = .ok () (v.newBuffer t n) := by
  rw [Vector.reserveValueCapacity, hVar]
  exact Vector.create_eq hVar n

theorem reserve_eq {e : ElementType} (hVar : v.var = some e) (h : e.string = true ∨ e.compound = true) (n : Nat) :
    ∃ room, v.room ≤ room ∧ Vector.reserveValueCapacity n v = .ok () { v with capacity := n, room := room } := by
  simp only [Vector.reserveValueCapacity, hVar]
  cases e with
  | cardinal t => simp [ElementType.string, ElementType.compound] at h
  | str | url => exact ⟨v.room, Nat.le_refl _, rfl⟩
  | array | struct | sequence | grid => exact ⟨max v.room n, Nat.le_max_left _ _, rfl⟩

theorem ElementType.cases (e : ElementType) : (∃ t, e = .cardinal t) ∨ e.string = true ∨ e.compound = true := by
  cases e with
  | cardinal t => exact .inl ⟨t, rfl⟩
  | str | url => exact .inr (.inl rfl)
  | array | struct | sequence | grid => exact .inr (.inr rfl)

theorem reserve_safe {n : Nat} (h : Backed v set) (hAllowed : AllowedOp ⟨v, set⟩ (.reserveValueCapacity n)) :
    Safe (VectorOp.call (.reserveValueCapacity n)) v set false := by
  have hCall : Call.Ends (Vector.reserveValueCapacity n) v
      (fun _ v' => Backed v' ((if v'.numeric then some false else none).getD set))
      (Left (set && !false)) := by
    rw [Call.Ends]
    cases hVar : v.var with
    | none =>
      rw [Vector.reserveValueCapacity, hVar]
      exact left_keeps (left_of_backed h (by simp))
    | some e =>
      rcases e.cases with ⟨t, rfl⟩ | hOther
      · rw [reserve_eq_create hVar]
        dsimp only
        rw [if_pos (numeric_of_var ((Vector.newBuffer_var t n v).trans hVar))]
        exact backed_newBuffer hVar (hAllowed.1 t hVar) (fun hSet => by cases hSet) h.room h.int
      · obtain ⟨room, hRoom, hRun⟩ := reserve_eq hVar hOther n
        rw [hRun]
        have hNumeric := not_numeric_of_var hVar hOther
        change Backed _ ((if v.numeric then some false else none).getD set)
        rw [hNumeric]
        exact h.with_capacity (hAllowed.2 hNumeric) hRoom
  apply hCall.bind
  intro _ w hw
  exact hw

theorem setCardinalValues_eq {numElts : Int} (hVar : v.var = some (.cardinal t)) (hLow : 0 ≤ numElts)
    (hHigh : (t.width : Int) * numElts < 4294967296) :
    Vector.setCardinalValuesInternal t numElts v =
      .ok () { ({ v with length := int32 numElts } : Vector).newBuffer t numElts.toNat with readP := true } := by
  obtain ⟨n, rfl⟩ := Int.eq_ofNat_of_zero_le hLow
  have hBytes : t.width * n < 4294967296 := by exact_mod_cast hHigh
  have hCount : uint32 (n : Int) = n := by
    rw [uint32_natCast]
    apply Nat.mod_eq_of_lt
    have hPos := numeric_width_pos t
    exact Nat.lt_of_le_of_lt (Nat.le_mul_of_pos_left n hPos) hBytes
  have hRoom : 0 + n * t.width ≤ uint32 (t.width * n) := by
    rw [← Nat.cast_mul, uint32_natCast, Nat.mod_eq_of_lt hBytes, Nat.zero_add, Nat.mul_comm]
  rw [Vector.setCardinalValuesInternal, if_neg (Int.not_lt.mpr hLow)]
  have hLength : Vector.setLength n v = .ok () { v with length := int32 n } := rfl
  rw [Call.bind_of_ok hLength, hCount, Call.bind_of_ok (Vector.create_eq (v := { v with length := int32 n }) hVar n),
    Int.toNat_natCast,
    Call.bind_of_ok (Vector.toBuffer_eq rfl hRoom)]
  rfl

theorem setValue_safe {type : Numeric} {val : Bool} {sz : Int} (h : Backed v set)
    (hAllowed : AllowedOp ⟨v, set⟩ (.setValue type val sz)) :
      Safe (VectorOp.call (.setValue type val sz)) v set false := by
  apply safe_bind
  rw [Call.Ends, Vector.setValue]
  cases hVar : v.var with
  | none => exact left_undefined
  | some e =>
    dsimp only
    by_cases hMatch : e = .cardinal type ∧ val = true
    · rw [if_pos hMatch]
      obtain ⟨rfl, -⟩ := hMatch
      by_cases hNegative : sz < 0
      · rw [Vector.setCardinalValuesInternal, if_pos hNegative]
        exact left_keeps (left_of_backed h (by simp))
      · have hLow := Int.not_lt.mp hNegative
        have hHigh : (type.width : Int) * sz < 4294967296 := hAllowed
        rw [Call.bind_of_ok (setCardinalValues_eq hVar hLow hHigh)]
        obtain ⟨n, rfl⟩ := Int.eq_ofNat_of_zero_le hLow
        have hNew : Backed (({ v with length := int32 n } : Vector).newBuffer type n) true :=
          backed_newBuffer hVar (by exact_mod_cast hHigh) (fun _ => int32_le (by omega)) h.room (int32_inInt n)
        exact ⟨hNew.capacity, hNew.values, hNew.numeric, hNew.small, hNew.room, hNew.int⟩
    · rw [if_neg hMatch]
      exact h

theorem resizeStr_eq {n : Int} (hLow : 0 ≤ n) : Vector.resizeStr n v = .ok ()
    { v with str := n.toNat, capacity := uint32 n } := by
  rw [Vector.resizeStr, if_neg (Int.not_lt.mpr hLow)]

theorem uint32_le_toNat {n : Int} (h : 0 ≤ n) : uint32 n ≤ n.toNat := by
  simp only [uint32]
  omega

theorem setValueStr_safe {val : Bool} {sz : Int} (h : Backed v set) :
    Safe (VectorOp.call (.setValueStr val sz)) v set false := by
  apply safe_bind
  rw [Call.Ends, Vector.setValueStr]
  cases hVar : v.var with
  | none => exact left_undefined
  | some e =>
    dsimp only
    by_cases hMatch : e.string = true ∧ val = true
    · rw [if_pos hMatch]
      have hBuf := h.no_buffer (not_numeric_of_var hVar (.inl hMatch.1))
      by_cases hNegative : sz < 0
      · rw [Call.bind_error.mpr (.inl (show Vector.resizeStr sz v =
          .error .lengthError v by rw [Vector.resizeStr, if_pos hNegative]))]
        exact left_keeps (left_of_backed h (by simp))
      · have hLow := Int.not_lt.mp hNegative
        rw [Call.bind_of_ok (resizeStr_eq hLow)]
        change Backed { v with str := sz.toNat, capacity := uint32 sz, length := int32 sz, readP := true } true
        refine backed_string hVar hMatch.1 hBuf (uint32_le_toNat hLow) ?_ h.room (int32_inInt sz)
        exact fun _ => (int32_le (by omega)).trans (Int.le_of_eq (Int.toNat_of_nonneg hLow).symm)
    · rw [if_neg hMatch]
      exact h

/-! ### The vector of pointers -/

theorem elements_of_not_compound (h : v.compound = false) {w : List (Option ElementType)} {n room : Nat} :
    Vector.elements { v with vec := w, room := room, capacity := n } = v.elements := by
  simp only [Vector.elements]
  cases hVar : v.var with
  | none => rfl
  | some e =>
    cases e with
    | cardinal t => rfl
    | str | url => rfl
    | array | struct | sequence | grid => simp [Vector.compound, hVar, ElementType.compound] at h

theorem numeric_not_compound (h : v.numeric = true) : v.compound = false := by
  rw [Vector.numeric] at h
  rw [Vector.compound]
  split at h
  · rename_i t hVar
    rw [hVar]
    rfl
  · cases h

theorem Backed.with_vec (h : Backed v set) {w : List (Option ElementType)} {n room : Nat} (hRoom : w.length ≤ room)
    (hKept : v.compound = false → ∀ m ∈ v.elements, n ≤ m)
    (hGrown : v.compound = true → n ≤ w.length ∧ (set = true → v.length ≤ (w.length : Int))) :
    Backed { v with vec := w, room := room, capacity := n } set := by
  cases hCompound : v.compound with
  | false =>
    refine ⟨?_, ?_, h.numeric, h.small, hRoom, h.int⟩
    · rw [elements_of_not_compound hCompound]
      exact hKept hCompound
    · rw [elements_of_not_compound hCompound]
      exact h.values
  | true =>
    have hBuf : v.buf = none := by
      apply h.no_buffer
      cases hNumeric : v.numeric with
      | false => rfl
      | true =>
        rw [numeric_not_compound hNumeric] at hCompound
        cases hCompound
    obtain ⟨hCapacity, hValues⟩ := hGrown hCompound
    exact backed_compound hCompound hBuf hCapacity hValues hRoom h.int

/-- An element in the place of another one. -/
theorem Backed.stored (h : Backed v set) (i : Nat) (e : Option ElementType) :
    Backed { v with vec := v.vec.set i e } set := by
  apply h.with_vec
  · rw [List.length_set]
    exact h.room
  · exact fun _ => h.capacity
  · intro hCompound
    rw [List.length_set]
    refine ⟨h.capacity _ (elements_compound hCompound), fun hSet => ?_⟩
    obtain ⟨n, hn, hLe⟩ := h.values hSet
    rw [elements_compound hCompound] at hn
    cases hn
    exact hLe

theorem resized_length (n : Nat) : (v.resized n).vec.length = n := by
  simp only [Vector.resized, List.length_append, List.length_take, List.length_replicate]
  omega

theorem resized_room (n : Nat) : n ≤ (v.resized n).room := by
  simp only [Vector.resized]
  split
  · assumption
  · exact Nat.le_max_right _ _

/-- The vector of pointers with another size, which is recorded as the capacity. -/
theorem backed_resized (h : Backed v set) {n : Nat} (hKept : v.compound = false → ∀ m ∈ v.elements, n ≤ m)
    (hGrown : v.compound = true → set = true → v.length ≤ (n : Int)) :
    Backed { v.resized n with capacity := n } set := by
  refine h.with_vec (w := (v.resized n).vec) ?_ hKept ?_
  · rw [resized_length]
    exact resized_room n
  · intro hCompound
    rw [resized_length]
    exact ⟨Nat.le_refl _, hGrown hCompound⟩

theorem vecResize_eq {n : Nat} (hSmall : n < 4294967296) : Vector.vecResize n v = .ok ()
    { v.resized n with capacity := n } := by
  rw [Vector.vecResize, Int.toNat_natCast, uint32_natCast, Nat.mod_eq_of_lt hSmall]

theorem vecResize_safe {l : Int} (h : Backed v set) (hAllowed : AllowedOp ⟨v, set⟩ (.vecResize l)) :
    Safe (VectorOp.call (.vecResize l)) v set false := by
  obtain ⟨hLow, hHigh, hKept, hGrown⟩ := hAllowed
  obtain ⟨n, rfl⟩ := Int.eq_ofNat_of_zero_le hLow
  have hSmall : n < 2147483648 := by exact_mod_cast hHigh
  apply safe_bind
  rw [Call.Ends, vecResize_eq (by omega)]
  exact backed_resized h (fun hCompound m hm => by exact_mod_cast hKept hCompound m hm) fun hCompound hSet => hGrown
    hSet hCompound

theorem setVec_safe {i : Nat} {val : Option ElementType} (h : Backed v set)
    (hAllowed : AllowedOp ⟨v, set⟩ (.setVec i val)) :
    Safe (VectorOp.call (.setVec i val)) v set false := by
  apply safe_bind
  unfold Call.Ends Vector.setVec
  by_cases hIndex : i ≥ uint32 v.length
  · rw [if_pos hIndex]
    exact left_keeps (left_of_backed h (by simp))
  rw [if_neg hIndex]
  cases val with
  | none => exact left_keeps (left_of_backed h (by simp))
  | some e =>
    dsimp only
    by_cases hVar : v.var = none
    · rw [if_pos hVar]
      exact left_undefined
    rw [if_neg hVar]
    by_cases hMatch : some e ≠ v.var
    · rw [if_pos hMatch]
      exact left_keeps (left_of_backed h (by simp))
    rw [if_neg hMatch]
    rcases hAllowed with ⟨hRoom, hSize⟩ | ⟨hRoom, hSmall, hKept⟩
    · rw [if_neg (Nat.not_le.mpr hRoom), Vector.storeVec, if_pos hSize]
      exact h.stored i (some e)
    · rw [if_pos hRoom]
      have hInt : int32 ((i : Int) + 10) = ((i + 10 : Nat) : Int) := by
        rw [int32_of_bounds (by omega) (by simp only [INT_MAX]; omega)]
        push_cast
        rfl
      rw [hInt, Call.bind_of_ok (vecResize_eq (by omega)), Vector.storeVec]
      have hNew : Backed { v.resized (i + 10) with capacity := i + 10 } set := by
        apply backed_resized h hKept
        intro hCompound hSet
        obtain ⟨n, hn, hLe⟩ := h.values hSet
        rw [elements_compound hCompound] at hn
        cases hn
        have hAll : (v.vec.length : Int) ≤ i := by exact_mod_cast h.room.trans hRoom
        push_cast
        omega
      rw [if_pos (by rw [resized_length]; omega)]
      exact hNew.stored i (some e)

theorem setLength_safe {l : Int} (h : Backed v set) (hAllowed : AllowedOp ⟨v, set⟩ (.setLength l)) :
    Safe (VectorOp.call (.setLength l)) v set false := by
  apply safe_bind
  refine ⟨h.capacity, fun hSet => ?_, h.numeric, h.small, h.room, int32_inInt l⟩
  obtain ⟨n, hn, -⟩ := h.values hSet
  exact ⟨n, hn, hAllowed hSet n hn⟩

theorem clearLocalData_safe (h : Backed v set) : Safe (VectorOp.call .clearLocalData) v set false := by
  apply safe_bind
  exact ⟨fun _ _ => Nat.zero_le _, nofun, nofun, nofun, Nat.zero_le _, h.int⟩

/-! ### Copies of blocks -/

theorem ensureBuffer_none (hVar : v.var = some (.cardinal t)) (hBuf : v.buf = none) (n : Nat) :
    Vector.ensureBuffer n v = .ok () (v.newBuffer t n) := by
  rw [Vector.ensureBuffer, hBuf]
  exact Vector.create_eq hVar n

theorem ensureBuffer_some {m : Nat} (hBuf : v.buf = some m) (n : Nat) : Vector.ensureBuffer n v = .ok () v := by
  rw [Vector.ensureBuffer, hBuf]
  rfl

theorem within_eq {needed given : Nat} (h : needed ≤ given) : Vector.within needed given v = .ok () v := by
  rw [Vector.within, if_neg (Nat.not_lt.mpr h)]

/-- After it there is a block for the length, which may be one that was there. -/
theorem ensureBuffer_backed {n : Nat} (h : Backed v false) (hVar : v.var = some (.cardinal t)) (hLength : v.length = n)
    (hSmall : n * t.width < 4294967296) (hFits : ∀ m ∈ v.buf, n * t.width ≤ m) :
    ∃ w, Vector.ensureBuffer n v = .ok () w ∧ Backed w true ∧ w.length = n ∧ ∃ m, w.buf = some m ∧ n * t.width ≤ m := by
  cases hBuf : v.buf with
  | none =>
    have hBytes : t.width * n < 4294967296 := by rwa [Nat.mul_comm]
    refine ⟨_, ensureBuffer_none hVar hBuf n, ?_, (Vector.newBuffer_length t n v).trans hLength, uint32 (t.width * n),
      rfl, ?_⟩
    · exact backed_newBuffer hVar hBytes (fun _ => Int.le_of_eq hLength) h.room h.int
    · rw [← Nat.cast_mul, uint32_natCast, Nat.mod_eq_of_lt hBytes, Nat.mul_comm]
  | some m =>
    refine ⟨v, ensureBuffer_some hBuf n, ?_, hLength, m, hBuf, hFits m hBuf⟩
    apply backed_buffer hVar hBuf (h.small m hBuf) _ _ h.room h.int
    · have hCapacity := h.capacity (m / t.width) (by rw [elements_numeric hVar, hBuf]; rfl)
      exact (Nat.le_div_iff_mul_le (numeric_width_pos t)).mp hCapacity
    · intro _
      rw [hLength]
      exact_mod_cast hFits m hBuf

theorem Backed.deleted (h : Backed v set) : Backed v.deleteCardinalDataBuffer false := by
  rw [Vector.deleteCardinalDataBuffer]
  split
  · rename_i hSome
    have hNumeric := h.numeric hSome
    rw [Vector.numeric] at hNumeric
    split at hNumeric
    · rename_i t hVar
      exact backed_none hVar rfl h.room h.int
    · cases hNumeric
  · exact h.weaken

theorem val2buf_numeric {given n : Nat} {reuse : Bool} (h : Backed v set) (hVar : v.var = some (.cardinal t))
    (hLength : v.length = n)
    (hSmall : n * t.width < 4294967296) (hGiven : n * t.width ≤ given)
    (hFits : reuse = true → ∀ m ∈ v.buf, n * t.width ≤ m) :
    ∃ w, Vector.val2buf (some given) reuse v = .ok () w ∧ Backed w true ∧ w.length = n := by
  obtain ⟨u, hu, huVar, huLength, huBacked, huFits⟩ :
      ∃ u, (if reuse then v else v.deleteCardinalDataBuffer) = u ∧ u.var = some (.cardinal t) ∧ u.length = n ∧
        Backed u false ∧
        ∀ m ∈ u.buf, n * t.width ≤ m := by
    refine ⟨_, rfl, ?_⟩
    cases reuse with
    | true => exact ⟨hVar, hLength, h.weaken, hFits rfl⟩
    | false => exact ⟨(Vector.deleteCardinalDataBuffer_var v).trans hVar, (Vector.deleteCardinalDataBuffer_length v).trans hLength, h.deleted, by simp⟩
  obtain ⟨w, hRun, hBacked, hKept, m, hBuf, hRoom⟩ := ensureBuffer_backed huBacked huVar huLength hSmall huFits
  have hCount : uint32 v.length = n := by
    rw [hLength, uint32_natCast]
    apply Nat.mod_eq_of_lt
    exact Nat.lt_of_le_of_lt (Nat.le_mul_of_pos_right n (numeric_width_pos t)) hSmall
  have hBytes : uint32 (v.length * t.width) = n * t.width := by
    rw [hLength, ← Nat.cast_mul, uint32_natCast, Nat.mod_eq_of_lt hSmall]
  refine ⟨w, ?_, hBacked, hKept⟩
  simp only [Vector.val2buf, hVar, hu, hCount, hBytes]
  rw [Call.bind_of_ok hRun, Call.bind_of_ok (within_eq hGiven), Vector.toBuffer_eq hBuf (by omega)]

theorem val2buf_safe {val : Option Nat} {reuse : Bool} (h : Backed v set)
    (hAllowed : AllowedOp ⟨v, set⟩ (.val2buf val reuse)) :
    Safe (VectorOp.call (.val2buf val reuse)) v set false := by
  obtain ⟨hNumeric, hOther⟩ := hAllowed
  apply safe_bind
  rw [Call.Ends]
  cases val with
  | none =>
    rw [Vector.val2buf]
    exact left_keeps (left_of_backed h (by simp))
  | some given =>
    cases hVar : v.var with
    | none =>
      simp only [Vector.val2buf, hVar]
      exact left_undefined
    | some e =>
      rcases e.cases with ⟨t, rfl⟩ | hString | hCompound
      · obtain ⟨hLow, hSmall, hGiven, hFits⟩ := hNumeric t hVar
        obtain ⟨n, hLength⟩ := Int.eq_ofNat_of_zero_le hLow
        dsimp only at hLength
        rw [hLength] at hSmall hGiven hFits
        obtain ⟨w, hRun, hBacked, -⟩ := val2buf_numeric h hVar hLength (by exact_mod_cast hSmall)
          (by exact_mod_cast hGiven given rfl) (fun hReuse m hm => by exact_mod_cast hFits hReuse m hm)
        rw [hRun]
        exact hBacked
      · have hNot := not_numeric_of_var hVar (.inl hString)
        have hGiven : v.length ≤ (given : Int) := hOther hNot given rfl
        have hRun : Vector.val2buf (some given) reuse v =
            (do Vector.resizeStr v.length; Vector.within v.length.toNat given : Call Vector Unit) v := by
          simp only [Vector.val2buf, hVar]
          cases e with
          | str | url => rfl
          | _ => cases hString
        rw [hRun]
        by_cases hNegative : v.length < 0
        · rw [Call.bind_error.mpr (.inl (show Vector.resizeStr v.length v = .error .lengthError v by
            rw [Vector.resizeStr, if_pos hNegative]))]
          exact left_keeps (left_of_backed h (by simp))
        · have hLow := Int.not_lt.mp hNegative
          rw [Call.bind_of_ok (resizeStr_eq hLow), within_eq (by omega)]
          exact backed_string hVar hString (h.no_buffer hNot) (uint32_le_toNat hLow)
            (fun _ => Int.le_of_eq (Int.toNat_of_nonneg hLow).symm) h.room h.int
      · have hRun : Vector.val2buf (some given) reuse v = .error (.InternalErr "Vector::val2buf: bad type") v := by
          simp only [Vector.val2buf, hVar]
          cases e with
          | array | struct | sequence | grid => rfl
          | _ => cases hCompound
        rw [hRun]
        exact left_keeps (left_of_backed h (by simp))

/-! ### Reading -/

theorem Backed.with_length (h : Backed v set) {l : Int} (hInt : InInt l) : Backed { v with length := l } false :=
  ⟨h.capacity, nofun, h.numeric, h.small, h.room, hInt⟩

theorem inInt_natCast {n : Nat} (h : n < 2147483648) : InInt n := by
  simp only [InInt, INT_MAX]
  omega

/-- A length below zero is, as a `size_t`, more than was read. -/
theorem length_of_uint32 {l : Int} {num : Nat} (h : uint32 l = num) (hSmall : num < 2147483648) (hInt : InInt l) :
    l = num := by
  simp only [InInt, INT_MAX] at hInt
  simp only [uint32] at h
  omega

theorem checkLength_ends {num : Nat} {msg : String} (h : Backed v set) (hSmall : num < 2147483648) :
    Call.Ends (Vector.checkLength num msg) v (fun _ w => w = { v with length := num }) (Left false) := by
  rw [Call.Ends, Vector.checkLength]
  have hInt : int32 num = num := int32_of_bounds (by omega) ((inInt_natCast hSmall).2)
  by_cases hUnset : v.length = -1
  · simp only [if_pos hUnset, hInt]
    have hCount : uint32 (num : Int) = num := by rw [uint32_natCast, Nat.mod_eq_of_lt (by omega)]
    rw [hCount, if_neg (by simp)]
  · simp only [if_neg hUnset]
    by_cases hSame : num ≠ uint32 v.length
    · rw [if_pos hSame]
      exact left_of_backed h.weaken (by simp)
    · rw [if_neg hSame]
      rw [← length_of_uint32 (not_not.mp hSame).symm hSmall h.int]

theorem readElements_ends {num : Nat} {um : Incoming} (h : Backed v true) :
    Call.Ends (Vector.readElements num um) v (fun _ w => Backed w true) (Left false) := by
  rw [Vector.readElements]
  split
  · exact Call.Ends.throw (left_of_backed h.weaken (by simp))
  · exact Call.Ends.pure h

theorem deserializeCardinal_ends {num : Nat} {um : Incoming} (h : Backed v set) (hVar : v.var = some (.cardinal t))
    (hNum : num < 2147483648) (hSmall : num * t.width < 4294967296) (hFits : ∀ m ∈ v.buf, num * t.width ≤ m) :
    Call.Ends (Vector.deserializeCardinal num um) v (fun _ w => Backed w true) (Left false) := by
  rw [Vector.deserializeCardinal]
  apply (checkLength_ends h hNum).bind
  rintro _ _ rfl
  obtain ⟨w, hRun, hBacked, -⟩ := ensureBuffer_backed (v := { v with length := (num : Int) })
      (h.with_length (inInt_natCast hNum)) hVar rfl hSmall hFits
  rw [Call.Ends, Call.bind_of_ok hRun]
  exact readElements_ends hBacked

theorem deserializeStr_ends {e : ElementType} {num : Nat} {um : Incoming} (h : Backed v set) (hVar : v.var = some e)
    (hString : e.string = true) (hNum : num < 2147483648) :
    Call.Ends (Vector.deserializeStr num um) v (fun _ w => Backed w true) (Left false) := by
  rw [Vector.deserializeStr]
  apply (checkLength_ends h hNum).bind
  rintro _ _ rfl
  rw [Call.Ends, Call.bind_of_ok (resizeStr_eq (v := { v with length := (num : Int) }) (Int.natCast_nonneg num))]
  apply readElements_ends
  exact backed_string hVar hString (h.no_buffer (not_numeric_of_var hVar (.inl hString)))
    (uint32_le_toNat (Int.natCast_nonneg num))
    (fun _ => Int.le_refl _) h.room (inInt_natCast hNum)

theorem storeVec_eq {i : Nat} {val : Option ElementType} (h : i < v.vec.length) :
    Vector.storeVec i val v = .ok () { v with vec := v.vec.set i val } := by
  rw [Vector.storeVec, if_pos h]

/-- One element after another is stored in its place. -/
theorem deserializeVec_ends {e : ElementType} {msg : String} {n i got : Nat} (h : Backed v true)
    (hRoom : i + n ≤ v.vec.length) :
    Call.Ends (Vector.deserializeVec e msg i n got) v (fun _ w => Backed w true) (Left false) := by
  induction n generalizing v i got with
  | zero => exact Call.Ends.pure h
  | succ n ih =>
    have hStored : Vector.storeVec i (some e) v = .ok () { v with vec := v.vec.set i (some e) } :=
        storeVec_eq (by omega)
    cases got with
    | zero =>
      rw [Vector.deserializeVec, Call.Ends, Call.bind_of_ok hStored]
      exact left_of_backed (h.stored i (some e)).weaken (by simp)
    | succ got =>
      rw [Vector.deserializeVec, Call.Ends, Call.bind_of_ok hStored]
      apply ih (h.stored i (some e))
      rw [List.length_set]
      omega

theorem deserializeCompound_ends {e : ElementType} {num : Nat} {um : Incoming} (h : Backed v set)
    (hVar : v.compound = true)
    (hNum : num < 2147483648) : Call.Ends (Vector.deserializeCompound e num um) v (fun _ w => Backed w true)
    (Left false) := by
  rw [Vector.deserializeCompound]
  apply (checkLength_ends h hNum).bind
  rintro _ _ rfl
  have hInt : int32 num = num := int32_of_bounds (by omega) (by simp only [INT_MAX]; omega)
  rw [Call.Ends, hInt, Call.bind_of_ok (vecResize_eq (v := { v with length := (num : Int) }) (by omega))]
  have hBuf : v.buf = none := by
    apply h.no_buffer
    cases hNumeric : v.numeric with
    | false => rfl
    | true =>
      rw [numeric_not_compound hNumeric] at hVar
      cases hVar
  have hSize : (({ v with length := (num : Int) } : Vector).resized num).vec.length = num := resized_length num
  apply deserializeVec_ends
  · exact backed_compound hVar hBuf (Nat.le_of_eq hSize.symm) (fun _ => Int.le_of_eq (congrArg Nat.cast hSize.symm))
      ((Nat.le_of_eq hSize).trans (resized_room num)) (inInt_natCast hNum)
  · exact (Nat.zero_add num).trans_le (Nat.le_of_eq hSize.symm)

theorem deserialize_safe {um : Incoming} {reuse : Bool} (h : Backed v set)
    (hAllowed : AllowedOp ⟨v, set⟩ (.deserialize um reuse)) :
    Safe (VectorOp.call (.deserialize um reuse)) v set true := by
  apply safe_bind
  rw [Bool.not_true, Bool.and_false]
  rw [Call.Ends]
  cases hVar : v.var with
  | none =>
    simp only [Vector.deserialize, hVar]
    exact left_undefined
  | some e =>
    obtain ⟨num?, got, msg⟩ := um
    rcases e.cases with ⟨t, rfl⟩ | hString | hCompound
    · obtain ⟨u, hu, huVar, huBacked, huFits⟩ :
          ∃ u, (if reuse then v else v.deleteCardinalDataBuffer) = u ∧ u.var = some (.cardinal t) ∧ Backed u false ∧
            ∀ num ∈ num?, ∀ m ∈ u.buf, num * t.width ≤ m := by
        refine ⟨_, rfl, ?_⟩
        cases reuse with
        | true => exact ⟨hVar, h.weaken, fun num hNum => ((hAllowed num hNum).2 t hVar).2 rfl⟩
        | false => exact ⟨(Vector.deleteCardinalDataBuffer_var v).trans hVar, h.deleted, by simp⟩
      simp only [Vector.deserialize, hVar, ElementType.compound, ElementType.string, Bool.false_or, hu]
      cases num? with
      | none => exact left_of_backed huBacked (by simp)
      | some num =>
        obtain ⟨hNum, hSmall⟩ := hAllowed num rfl
        exact deserializeCardinal_ends huBacked huVar hNum (hSmall t hVar).1 (huFits num rfl)
    · have hNot : e.compound = false := by
        cases e with
        | str | url => rfl
        | _ => cases hString
      simp only [Vector.deserialize, hVar, hString, hNot, Bool.or_true, Bool.true_or, if_true]
      cases num? with
      | none => exact left_of_backed h.weaken (by simp)
      | some num => exact deserializeStr_ends h hVar hString (hAllowed num rfl).1
    · simp only [Vector.deserialize, hVar, hCompound, Bool.true_or, if_true]
      cases num? with
      | none => exact left_of_backed h.weaken (by simp)
      | some num =>
        exact deserializeCompound_ends h (by rw [Vector.compound, hVar]; exact hCompound) (hAllowed num rfl).1

/-! ### Copies of Vectors -/

theorem duplicateVec_cases {n : Nat} {elements : List (Option ElementType)} (h : n ≤ elements.length) :
    Vector.duplicateVec n elements = .error .undefined ∨
      ∃ copies, Vector.duplicateVec n elements = .ok copies ∧ copies.length = n := by
  induction elements generalizing n with
  | nil =>
    obtain rfl : n = 0 := Nat.le_zero.mp h
    exact .inr ⟨[], rfl, rfl⟩
  | cons element rest ih =>
    cases n with
    | zero => exact .inr ⟨[], rfl, rfl⟩
    | succ n =>
      cases element with
      | none => exact .inl rfl
      | some e =>
        rcases ih (Nat.le_of_succ_le_succ h) with hError | ⟨copies, hOk, hLength⟩
        · left
          rw [Vector.duplicateVec, hError]
          rfl
        · right
          refine ⟨some e :: copies, ?_, congrArg Nat.succ hLength⟩
          rw [Vector.duplicateVec, hOk]
          rfl

/-- As many pointers as the length says, unless the other has none. -/
structure CopiedVec (rhs v w : Vector) : Prop where
  var : w.var = v.var
  length : w.length = v.length
  none : rhs.vec = [] → w.vec = []
  some : rhs.vec ≠ [] → (w.vec.length : Int) = v.length
  room : w.vec.length ≤ w.room

theorem copyVec_ends {rhs : Vector} (h : rhs.vec ≠ [] → v.length ≤ (rhs.vec.length : Int) ∧ 0 ≤ v.length) :
    Call.Ends (Vector.copyVec rhs) v (fun _ w => CopiedVec rhs v w) (fun f _ => f = .undefined) := by
  unfold Call.Ends Vector.copyVec
  by_cases hEmpty : rhs.vec = []
  · rw [hEmpty]
    exact ⟨rfl, rfl, fun _ => rfl, fun hNot => absurd hEmpty hNot, Nat.zero_le _⟩
  · obtain ⟨hFits, hLow⟩ := h hEmpty
    rw [if_neg (by simpa using hEmpty), if_neg (Int.not_lt.mpr hLow)]
    rcases duplicateVec_cases (by omega : v.length.toNat ≤ rhs.vec.length) with hError | ⟨copies, hOk, hLength⟩
    · rw [hError]
    · rw [hOk]
      have hSame : (copies.length : Int) = v.length := by omega
      exact ⟨rfl, rfl, fun hNone => absurd hNone hEmpty, fun _ => hSame, hLength.trans_le (resized_room _)⟩

theorem Backed.of_true (h : Backed v true) : Backed v set :=
    ⟨h.capacity, fun _ => h.values rfl, h.numeric, h.small, h.room, h.int⟩

/-- What is copied without a block. -/
theorem backed_copy {rhs u w : Vector} (h : Backed rhs set) (hVec : CopiedVec rhs u w) (hVar : w.var = rhs.var)
    (hLength : w.length = rhs.length) (hBuf : rhs.buf = none)
    (hCapacity : rhs.vec ≠ [] → rhs.compound = true → (rhs.capacity : Int) ≤ rhs.length) :
    Backed { w with str := rhs.str, buf := none, capacity := rhs.capacity } set := by
  have hInt : InInt w.length := hLength ▸ h.int
  have hUnset : rhs.elements = none → set = false := by
    intro hNone
    cases set with
    | false => rfl
    | true =>
      obtain ⟨n, hn, -⟩ := h.values rfl
      rw [hNone] at hn
      cases hn
  cases hType : rhs.var with
  | none =>
    rw [hUnset (by rw [Vector.elements, hType])]
    refine ⟨?_, nofun, nofun, nofun, hVec.room, hInt⟩
    intro n hn
    rw [Vector.elements, hVar, hType] at hn
    cases hn
  | some e =>
    rcases e.cases with ⟨t, rfl⟩ | hString | hCompound
    · rw [hUnset (by rw [elements_numeric hType, hBuf]; rfl)]
      exact backed_none (hVar.trans hType) rfl hVec.room hInt
    · have hElements := elements_string hType hString
      refine backed_string (hVar.trans hType) hString rfl (h.capacity _ hElements) ?_ hVec.room hInt
      intro hSet
      obtain ⟨n, hn, hLe⟩ := h.values hSet
      rw [hElements] at hn
      cases hn
      exact hLength.trans_le hLe
    · have hIs : rhs.compound = true := by rw [Vector.compound, hType]; exact hCompound
      have hElements := elements_compound hIs
      have hNew : w.compound = true := by rwa [Vector.compound, hVar]
      have hHeld := h.capacity _ hElements
      by_cases hEmpty : rhs.vec = []
      · refine backed_compound hNew rfl ?_ ?_ hVec.room hInt
        · rw [hEmpty] at hHeld
          rw [hVec.none hEmpty]
          exact hHeld
        · intro hSet
          obtain ⟨n, hn, hLe⟩ := h.values hSet
          rw [hElements, hEmpty] at hn
          cases hn
          rw [hVec.none hEmpty]
          exact hLength.trans_le hLe
      · have hSame : (w.vec.length : Int) = rhs.length := (hVec.some hEmpty).trans (hVec.length.symm.trans hLength)
        refine backed_compound hNew rfl ?_ ?_ hVec.room hInt
        · have hLe := hCapacity hEmpty hIs
          exact_mod_cast hLe.trans_eq hSame.symm
        · exact fun _ => Int.le_of_eq (hLength.trans hSame.symm)

theorem copyBuf_none {rhs : Vector} (h : rhs.buf = none) :
    Vector.copyBuf rhs v = .ok () { v with str := rhs.str, buf := none } := by
  rw [Vector.copyBuf, h]
  rfl

/-- The block is made anew, for as many elements as the length says. -/
theorem copyBuf_some {rhs : Vector} {n k : Nat} (hBuf : rhs.buf = some n) (hVar : v.var = some (.cardinal t))
    (hLength : v.length = k)
    (hFits : k * t.width ≤ n) (hSmall : n < 4294967296) (hRoom : v.vec.length ≤ v.room) (hInt : InInt v.length) :
    ∃ w, Vector.copyBuf rhs v = .ok () w ∧ Backed w true ∧ w.length = k := by
  rw [Vector.copyBuf, hBuf]
  exact val2buf_numeric (v := { v with str := rhs.str, buf := none }) (backed_none hVar rfl hRoom hInt) hVar hLength
    (hFits.trans_lt hSmall) hFits nofun

theorem assign_safe {rhs : Tracked} (hOther : Backed rhs.vector rhs.set) (hAllowed : AllowedOp ⟨v, set⟩ (.assign rhs)) :
    Safe (VectorOp.call (.assign rhs)) v set true := by
  obtain ⟨hVec, hCapacity, hNumeric⟩ := hAllowed
  apply safe_bind
  rw [Bool.not_true, Bool.and_false, Call.Ends, Vector.assign, Vector.duplicate]
  change Call.Ends (do
    Vector.copyVec rhs.vector
    Vector.copyBuf rhs.vector
    Vector.copyCapacity rhs.vector) { v with readP := rhs.vector.readP, length := rhs.vector.length, var :=
      rhs.vector.var } _ _
  obtain ⟨u, hu⟩ : ∃ u,
      ({ v with readP := rhs.vector.readP, length := rhs.vector.length, var := rhs.vector.var } : Vector) = u :=
    ⟨_, rfl⟩
  have huVar : u.var = rhs.vector.var := by rw [← hu]
  have huLength : u.length = rhs.vector.length := by rw [← hu]
  rw [hu]
  apply Call.Ends.bind (Q := fun _ w => CopiedVec rhs.vector u w)
  · apply (copyVec_ends (huLength.symm ▸ hVec)).conseq
    · exact fun _ _ hw => hw
    · rintro f w rfl
      exact left_undefined
  · intro _ w hw
    have hVar : w.var = rhs.vector.var := hw.var.trans huVar
    have hLength : w.length = rhs.vector.length := hw.length.trans huLength
    cases hBuf : rhs.vector.buf with
    | none =>
      rw [Call.Ends, Call.bind_of_ok (copyBuf_none hBuf)]
      exact backed_copy (w := w) hOther hw hVar hLength hBuf hCapacity
    | some n =>
      have hIs := hOther.numeric (by rw [hBuf]; rfl)
      obtain ⟨t, hType⟩ : ∃ t, rhs.vector.var = some (.cardinal t) := by
        rw [Vector.numeric] at hIs
        split at hIs
        · exact ⟨_, by assumption⟩
        · cases hIs
      obtain ⟨hLow, hFits, hHeld⟩ := hNumeric t hType n hBuf
      obtain ⟨k, hk⟩ := Int.eq_ofNat_of_zero_le hLow
      rw [hk] at hFits hHeld
      obtain ⟨c, hRun, hBacked, hcLength⟩ := copyBuf_some hBuf (hVar.trans hType) (hLength.trans hk)
          (by exact_mod_cast hFits)
        (hOther.small n hBuf) hw.room (hLength ▸ hOther.int)
      rw [Call.Ends, Call.bind_of_ok hRun]
      have hRoomy : ∀ m ∈ c.elements, rhs.vector.capacity ≤ m := by
        intro m hm
        obtain ⟨m', hm', hLe⟩ := hBacked.values rfl
        obtain rfl : m' = m := Option.some.inj (hm'.symm.trans hm)
        omega
      exact (hBacked.with_capacity hRoomy (Nat.le_refl c.room)).of_true

/-! ### Slices -/

theorem capacity_le_buffer {n : Nat} (h : Backed v set) (hVar : v.var = some (.cardinal t)) (hBuf : v.buf = some n) :
    v.capacity * t.width ≤ n := by
  have hFits := h.capacity (n / t.width) (by rw [elements_numeric hVar, hBuf]; rfl)
  exact (Nat.le_div_iff_mul_le (numeric_width_pos t)).mp hFits

theorem copyBuffer_ends {src : Vector} {srcSet : Bool} {startElement len : Nat} (h : Backed v set)
    (hSrc : Backed src srcSet)
    (hVar : v.var = some (.cardinal t)) (hSrcVar : src.var = some (.cardinal t)) (hLength : src.length = len)
    (hSmall : len * t.width < 2147483648) (hGiven : len ≤ src.capacity) (hHeld : startElement + len ≤ v.capacity) :
    Call.Ends (Vector.copyBuffer src t startElement) v (fun _ w => w = v) (Left set) := by
  have hBytes : uint32 (src.length * t.width) = len * t.width := by
    rw [hLength, ← Nat.cast_mul, uint32_natCast, Nat.mod_eq_of_lt (by omega)]
  have hInt : int32 ((len * t.width : Nat) : Int) = ((len * t.width : Nat) : Int) := by
    apply int32_of_bounds (by omega)
    simp only [INT_MAX]
    omega
  unfold Call.Ends Vector.copyBuffer
  cases hBuf : v.buf with
  | none => exact left_of_backed h (by simp)
  | some n =>
    cases hFrom : src.buf with
    | none => exact left_of_backed h (by simp)
    | some given =>
      have hRead : len * t.width ≤ given :=
        (Nat.mul_le_mul_right t.width hGiven).trans (capacity_le_buffer hSrc hSrcVar hFrom)
      have hWritten : (startElement + len) * t.width ≤ n :=
        (Nat.mul_le_mul_right t.width hHeld).trans (capacity_le_buffer h hVar hBuf)
      rw [Nat.add_mul] at hWritten
      have hStart : uint32 (startElement * t.width) = startElement * t.width := by
        have hBlock := h.small n hBuf
        rw [← Nat.cast_mul, uint32_natCast, Nat.mod_eq_of_lt (by omega)]
      simp only [Option.isNone_some, Bool.false_eq_true, if_false, hBytes, hInt, hStart, Int.toNat_natCast]
      rw [if_neg (by omega), Call.bind_of_ok (within_eq hRead), Vector.toBuffer_eq hBuf hWritten]

theorem copyStr_ends {src : Vector} {startElement len : Nat} (hLength : src.length = len)
    (hGiven : len ≤ src.str) (hHeld : startElement + len ≤ v.str) :
    Call.Ends (Vector.copyStr src startElement) v (fun _ w => w = v) (Left set) := by
  unfold Call.Ends Vector.copyStr
  by_cases hEmpty : src.length ≤ 0
  · rw [if_pos hEmpty]
  · rw [if_neg hEmpty, if_neg (by omega)]

theorem setValueSlice_ends {src : Tracked} {startElement : Nat} (h : Backed v set) (hSrc : Backed src.vector src.set)
    (hAllowed : AllowedOp ⟨v, set⟩ (.setValueSlice src startElement)) :
    Call.Ends (Vector.setValueSliceFromRowMajorVector src.vector startElement) v (fun _ w => w = v) (Left set) := by
  obtain ⟨hSum, hBytes⟩ := hAllowed
  unfold Call.Ends Vector.setValueSliceFromRowMajorVector
  by_cases hNone : src.vector.var = none
  · rw [if_pos hNone]
    exact left_undefined
  rw [if_neg hNone]
  by_cases hMatch : v.var ≠ src.vector.var
  · rw [if_pos hMatch]
    exact left_of_backed h (by simp)
  rw [if_neg hMatch]
  by_cases hRead : (!src.vector.readP) = true
  · rw [if_pos hRead]
    exact left_of_backed h (by simp)
  rw [if_neg hRead]
  by_cases hUnset : src.vector.length < 0
  · rw [if_pos hUnset]
    exact left_of_backed h (by simp)
  rw [if_neg hUnset]
  obtain ⟨len, hLength⟩ := Int.eq_ofNat_of_zero_le (Int.not_lt.mp hUnset)
  have hLen : uint32 src.vector.length = len := by rw [hLength, uint32_natCast, Nat.mod_eq_of_lt (by omega)]
  have hEnd : uint32 (startElement + src.vector.length) = startElement + len := by
    rw [hLength, ← Nat.cast_add, uint32_natCast, Nat.mod_eq_of_lt (by omega)]
  rw [hLen, hEnd]
  by_cases hFrom : src.vector.capacity < len
  · rw [if_pos hFrom]
    exact left_of_backed h (by simp)
  rw [if_neg hFrom]
  by_cases hInto : v.capacity < startElement + len
  · rw [if_pos hInto]
    exact left_of_backed h (by simp)
  rw [if_neg hInto]
  have hGiven := Nat.not_lt.mp hFrom
  have hHeld := Nat.not_lt.mp hInto
  have hSame := not_not.mp hMatch
  cases hVar : v.var with
  | none => exact left_of_backed h (by simp)
  | some e =>
    rw [hVar] at hSame
    rcases e.cases with ⟨t, rfl⟩ | hString | hCompound
    · have hSmall : src.vector.length * t.width < 2147483648 := hBytes t hSame.symm
      rw [hLength] at hSmall
      exact (copyBuffer_ends h hSrc hVar hSame.symm hLength (by exact_mod_cast hSmall) hGiven hHeld).bind fun _ _ hw =>
        hw
    · have hCopy : Call.Ends (Vector.copyStr src.vector startElement) v (fun _ w => w = v) (Left set) :=
          copyStr_ends hLength
        (hGiven.trans (hSrc.capacity _ (elements_string hSame.symm hString)))
        (hHeld.trans (h.capacity _ (elements_string hVar hString)))
      cases e with
      | str | url => exact hCopy.bind fun _ _ hw => hw
      | _ => cases hString
    · cases e with
      | array | struct | sequence | grid => exact left_of_backed h (by simp)
      | _ => cases hCompound

theorem setValueSlice_safe {src : Tracked} {startElement : Nat} (h : Backed v set) (hSrc : Backed src.vector src.set)
    (hAllowed : AllowedOp ⟨v, set⟩ (.setValueSlice src startElement)) :
    Safe (VectorOp.call (.setValueSlice src startElement)) v set false := by
  apply safe_bind
  apply (setValueSlice_ends h hSrc hAllowed).conseq
  · rintro _ w rfl
    exact h
  · exact fun _ _ hLeft => left_keeps hLeft

end

/-! ## Runs keep the invariant -/

theorem VectorOp.safe {k : Tracked} (op : VectorOp) (h : Backed k.vector k.set)
    (hOther : ∀ o ∈ op.other, Backed o.vector o.set)
    (hAllowed : AllowedOp k op) : Safe op.call k.vector k.set op.replaces := by
  cases op with
  | reserveValueCapacity n => exact reserve_safe h hAllowed
  | setValue t val sz => exact setValue_safe h hAllowed
  | setValueStr val sz => exact setValueStr_safe h
  | setVec i val => exact setVec_safe h hAllowed
  | vecResize l => exact vecResize_safe h hAllowed
  | setLength l => exact setLength_safe h hAllowed
  | val2buf val reuse => exact val2buf_safe h hAllowed
  | deserialize um reuse => exact deserialize_safe h hAllowed
  | clearLocalData => exact clearLocalData_safe h
  | assign rhs => exact assign_safe (hOther rhs rfl) hAllowed
  | setValueSlice src startElement => exact setValueSlice_safe h (hOther src rfl) hAllowed

theorem Safe.step {k k' : Tracked} {op : VectorOp} (h : Safe op.call k.vector k.set op.replaces)
    (hAfter : op.after k = some k') :
    Backed k'.vector k'.set := by
  rw [VectorOp.after] at hAfter
  cases hRun : op.call k.vector with
  | ok r v =>
    rw [hRun] at hAfter
    cases hAfter
    exact h.ok hRun
  | error f v =>
    obtain ⟨-, hLeft⟩ := h.error hRun
    rw [hRun] at hAfter
    cases f with
    | outOfBounds | undefined => cases hAfter
    | _ =>
      cases hAfter
      exact hLeft (by simp)

theorem backed_new (var : Option ElementType) : Backed (Vector.new var) false where
  capacity _ _ := Nat.zero_le _
  values := nofun
  numeric := nofun
  small := nofun
  room := Nat.le_refl 0
  int := by simp [InInt, INT_MAX, Vector.new]

theorem VectorReached.backed {k : Tracked} (h : VectorReached AllowedOp k) : Backed k.vector k.set := by
  induction h with
  | new var => exact backed_new var
  | step op _ _ hAllowed hAfter ih ihOther => exact Safe.step (op.safe ih ihOther hAllowed) hAfter

/-- There are as many elements as the capacity says, and as the length says once values are set; no operation goes past
the end of the storage. -/
theorem Vector.storage_of_reached {k : Tracked} (h : VectorReached AllowedOp k) :
    (∀ n ∈ k.vector.elements, k.vector.capacity ≤ n) ∧
      (k.set = true → ∃ n ∈ k.vector.elements, k.vector.length ≤ (n : Int)) ∧
      ∀ op : VectorOp, (∀ o ∈ op.other, VectorReached AllowedOp o) → AllowedOp k op →
        ∀ v, op.call k.vector ≠ .error .outOfBounds v := by
  refine ⟨h.backed.capacity, h.backed.values, fun op hOther hAllowed v hRun => ?_⟩
  have hSafe := op.safe h.backed (fun o ho => (hOther o ho).backed) hAllowed
  exact (hSafe.error hRun).1 rfl

/-- Two values are set, and the second one is replaced by one value of another Vector. -/
theorem Vector.storage_of_values :
    ∃ k one : Tracked, VectorReached AllowedOp k ∧ k.vector.capacity = 2 ∧ k.vector.length = 2 ∧
      k.vector.elements = some 2 ∧
      (VectorOp.setValueSlice one 1).call k.vector = .ok none k.vector ∧
      ∀ v, (VectorOp.setValueSlice one 1).call k.vector ≠ .error .outOfBounds v := by
  have hOne : VectorReached AllowedOp ⟨⟨some (.cardinal .int16), 1, true, some 2, 0, [], 0, 1⟩, true⟩ :=
    .step (.setValue .int16 true 1) (.new (some (.cardinal .int16))) nofun
      (show (2 : Int) * 1 < 4294967296 by decide) rfl
  have hTwo : VectorReached AllowedOp ⟨⟨some (.cardinal .int16), 2, true, some 4, 0, [], 0, 2⟩, true⟩ :=
    .step (.setValue .int16 true 2) (.new (some (.cardinal .int16))) nofun
      (show (2 : Int) * 2 < 4294967296 by decide) rfl
  refine ⟨_, ⟨⟨some (.cardinal .int16), 1, true, some 2, 0, [], 0, 1⟩, true⟩, hTwo, rfl, rfl, rfl, rfl,
    (Vector.storage_of_reached hTwo).2.2 _ ?_ ?_⟩
  · rintro o ho
    cases ho
    exact hOne
  · refine ⟨by decide, fun t ht => ?_⟩
    cases ht
    decide

/-- Room is reserved for ten strings, and a Vector of one string is copied into it. -/
theorem Vector.no_storage_of_reserved :
    ∃ k one : Tracked, VectorReached (fun _ _ => True) k ∧ VectorReached (fun _ _ => True) one ∧
      k.vector.capacity = 10 ∧ k.vector.elements = some 0 ∧
      (VectorOp.setValueSlice one 0).call k.vector = .error .outOfBounds k.vector := by
  refine ⟨⟨⟨some .str, -1, false, none, 0, [], 0, 10⟩, false⟩, ⟨⟨some .str, 1, true, none, 1, [], 0, 1⟩, true⟩, ?_, ?_,
    rfl, rfl, rfl⟩
  · exact .step (.reserveValueCapacity 10) (.new (some .str)) nofun trivial rfl
  · exact .step (.setValueStr true 1) (.new (some .str)) nofun trivial rfl

end Libdap.Dap2
