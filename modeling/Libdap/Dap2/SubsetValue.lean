import Libdap.Dap2.Vector
import Libdap.Core.Bytes
import Libdap.Constraint.Word

/-! # Elements of a Vector at a list of indices

`value` looks at one index after the other: it throws when the index is over the length, and copies the element
otherwise.
-/

namespace Libdap.Dap2
open Core Constraint
set_option autoImplicit false

/-- A Vector with what is in its storage. -/
structure StoredVector where
  name : String
  var : ElementType
  length : Int
  isInt : InInt length
  buf : Option Bytes
  str : List Word

namespace StoredVector

/-- `reinterpret_cast<T*>(_buf)[i]`, for a type of so many bytes. -/
def loadCardinal (v : StoredVector) (width i : Nat) : Except Fault Bytes :=
  match v.buf with
  | none => .error .outOfBounds
  | some b => if i * width + width ≤ b.length then .ok ((b.drop (i * width)).take width) else .error .outOfBounds

/-- `d_str[i]` -/
def loadString (v : StoredVector) (i : Nat) : Except Fault Word :=
  match v.str[i]? with
  | none => .error .outOfBounds
  | some s => .ok s

def outsideBounds (v : StoredVector) (i currentIndex : Nat) : Fault :=
  .Error ("Vector::value() - Subset index[" ++ toString i ++ "] = " ++ toString currentIndex ++
    " references a value that is outside the bounds of the internal storage [ length()= " ++ toString v.length ++
    " ] name: '" ++ v.name ++ "'. ")

/-- The loop that all of the methods have, from place `i` of the indices on. The length is compared as an unsigned
number. -/
def copyFrom {α : Type} (v : StoredVector) (load : Nat → Except Fault α) :
    Nat → List UInt32 → Except Fault (List α)
  | _, [] => .ok []
  | i, currentIndex :: subsetIndex =>
    if currentIndex.toNat > uint32 v.length then .error (v.outsideBounds i currentIndex.toNat)
    else do
      let x ← load currentIndex.toNat
      let b ← copyFrom v load (i + 1) subsetIndex
      .ok (x :: b)

/-- `value` for the numeric types: the bytes of the elements. -/
def value (t : Numeric) (v : StoredVector) (subsetIndex : List UInt32) : Except Fault (List Bytes) :=
  v.copyFrom (v.loadCardinal t.width) 0 subsetIndex

/-- `value` for strings: nothing is stored when the elements are none. -/
def valueStr (v : StoredVector) (subsetIndex : List UInt32) : Except Fault (List Word) :=
  if v.var.string then v.copyFrom v.loadString 0 subsetIndex else .ok []

/-- An element of the Vector; behind the last one there is none. -/
def element {α : Type} (v : StoredVector) (load : Nat → Except Fault α) (i : Nat) : Except Fault α :=
  if (i : Int) < v.length then load i else .error .outOfBounds

/-- A run for these indices is one with nothing in the storage but the elements. It throws an `Error`, and some index is
not below the length, or it stores the elements, and there is no such index. -/
def Checks {α : Type} (v : StoredVector) (load : Nat → Except Fault α) (i : Nat) (subsetIndex : List UInt32)
    (run : Except Fault (List α)) : Prop :=
  run = v.copyFrom (v.element load) i subsetIndex ∧
    ((∃ msg, run = .error (.Error msg)) ∧ (∃ j ∈ subsetIndex, ¬ (j.toNat : Int) < v.length) ∨
      ∃ b, run = .ok b ∧ (∀ j ∈ subsetIndex, (j.toNat : Int) < v.length) ∧
        List.Forall₂ (fun j x => load j.toNat = .ok x) subsetIndex b)

def Checked {α : Type} (v : StoredVector) (load : Nat → Except Fault α) (i : Nat) (subsetIndex : List UInt32) : Prop :=
  v.Checks load i subsetIndex (v.copyFrom load i subsetIndex)

/-- Up to the first index that is not below the length the elements are there, and that index is not the length. -/
def Passable {α : Type} (v : StoredVector) (load : Nat → Except Fault α) : List UInt32 → Prop
  | [] => True
  | j :: subsetIndex =>
    if (j.toNat : Int) < v.length then (∃ x, load j.toNat = .ok x) ∧ Passable v load subsetIndex
    else uint32 v.length < j.toNat

variable {α : Type} {v : StoredVector} {load : Nat → Except Fault α} {f : Fault}

theorem loadCardinal_error {width i : Nat} (h : v.loadCardinal width i = .error f) : f = .outOfBounds := by
  rw [loadCardinal] at h
  split at h
  · cases h
    rfl
  · split at h
    · cases h
    · cases h
      rfl

theorem loadString_error {i : Nat} (h : v.loadString i = .error f) : f = .outOfBounds := by
  rw [loadString] at h
  split at h
  · cases h
    rfl
  · cases h

theorem not_over_of_lt {j : UInt32} (h : (j.toNat : Int) < v.length) : ¬ j.toNat > uint32 v.length := by
  have hHigh := v.isInt.2
  simp only [INT_MAX, uint32] at hHigh ⊢
  omega

theorem element_of_lt {i : Nat} (h : (i : Int) < v.length) : v.element load i = load i := by rw [element, if_pos h]

/-- The step over an index that is below the length. -/
theorem checked_cons_of_lt (hLoad : ∀ i f, load i = .error f → f = .outOfBounds) {i : Nat} {j : UInt32}
    {subsetIndex : List UInt32} (hLess : (j.toNat : Int) < v.length) :
    v.Checked load i (j :: subsetIndex) ↔ (∃ x, load j.toNat = .ok x) ∧ v.Checked load (i + 1) subsetIndex := by
  rw [Checked, Checks, copyFrom, copyFrom, if_neg (not_over_of_lt hLess), if_neg (not_over_of_lt hLess),
    element_of_lt hLess]
  cases hFirst : load j.toNat with
  | error f =>
    obtain rfl := hLoad _ _ hFirst
    constructor
    · rintro ⟨-, ⟨⟨msg, hRun⟩, -⟩ | ⟨b, hRun, -⟩⟩
      · cases hRun
      · cases hRun
    · rintro ⟨⟨x, hx⟩, -⟩
      cases hx
  | ok x =>
    rw [ok_bind, ok_bind, Checked, Checks]
    constructor
    · rintro ⟨hSame, h⟩
      refine ⟨⟨x, rfl⟩, ?_, ?_⟩
      · cases hLeft : v.copyFrom load (i + 1) subsetIndex with
        | ok xs =>
          rw [hLeft, ok_bind] at hSame
          obtain ⟨ys, hRight, hEq⟩ := bind_eq_ok hSame.symm
          cases hEq
          exact hRight.symm
        | error f =>
          rw [hLeft, error_bind] at hSame
          obtain hRight | ⟨ys, -, hEq⟩ := bind_eq_error hSame.symm
          · exact hRight.symm
          · cases hEq
      · obtain ⟨⟨msg, hRun⟩, k, hk, hOver⟩ | ⟨b, hRun, hBelow, hStored⟩ := h
        · obtain hRest | ⟨xs, -, hRun⟩ := bind_eq_error hRun
          · obtain rfl | hk := List.mem_cons.mp hk
            · exact absurd hLess hOver
            · exact .inl ⟨⟨msg, hRest⟩, k, hk, hOver⟩
          · cases hRun
        · obtain ⟨xs, hRest, hRun⟩ := bind_eq_ok hRun
          cases hRun
          obtain ⟨-, hStored⟩ := List.forall₂_cons.mp hStored
          exact .inr ⟨xs, hRest, fun k hk => hBelow k (List.mem_cons_of_mem j hk), hStored⟩
    · rintro ⟨-, hSame, h⟩
      rw [← hSame]
      refine ⟨rfl, ?_⟩
      obtain ⟨⟨msg, hRun⟩, k, hk, hOver⟩ | ⟨b, hRun, hBelow, hStored⟩ := h
      · rw [hRun]
        exact .inl ⟨⟨msg, rfl⟩, k, List.mem_cons_of_mem j hk, hOver⟩
      · rw [hRun]
        exact .inr ⟨x :: b, rfl, List.forall_mem_cons.mpr ⟨hLess, hBelow⟩, .cons hFirst hStored⟩

/-- The step at an index that is not below the length. -/
theorem checked_cons_of_not_lt {i : Nat} {j : UInt32} {subsetIndex : List UInt32}
    (hLess : ¬ (j.toNat : Int) < v.length) :
    v.Checked load i (j :: subsetIndex) ↔ uint32 v.length < j.toNat := by
  rw [Checked, Checks, copyFrom, copyFrom]
  by_cases hOver : j.toNat > uint32 v.length
  · rw [if_pos hOver, if_pos hOver]
    constructor
    · intro _
      exact hOver
    · intro _
      exact ⟨rfl, .inl ⟨⟨_, rfl⟩, j, List.mem_cons_self, hLess⟩⟩
  · rw [if_neg hOver, if_neg hOver, element, if_neg hLess, error_bind]
    constructor
    · rintro ⟨hSame, ⟨⟨msg, hRun⟩, -⟩ | ⟨b, hRun, -⟩⟩
      · rw [hSame] at hRun
        cases hRun
      · rw [hSame] at hRun
        cases hRun
    · intro hAbove
      exact absurd hAbove hOver

theorem checked_iff (hLoad : ∀ i f, load i = .error f → f = .outOfBounds) (i : Nat) (subsetIndex : List UInt32) :
    v.Checked load i subsetIndex ↔ v.Passable load subsetIndex := by
  induction subsetIndex generalizing i with
  | nil =>
    constructor
    · intro _
      exact trivial
    · intro _
      exact ⟨rfl, .inr ⟨[], rfl, by simp, .nil⟩⟩
  | cons j subsetIndex ih =>
    rw [Passable]
    split
    · rename_i hLess
      rw [checked_cons_of_lt hLoad hLess, ih (i + 1)]
    · rename_i hLess
      exact checked_cons_of_not_lt hLess

/-- In a Vector that has all of its elements only the length itself must not be met before an index over it. -/
theorem passable_iff (hHeld : ∀ i : Nat, (i : Int) < v.length → ∃ x, load i = .ok x) (hLow : 0 ≤ v.length)
    (subsetIndex : List UInt32) : v.Passable load subsetIndex ↔
      ∀ j ∈ subsetIndex.find? fun j => ¬ (j.toNat : Int) < v.length, (j.toNat : Int) ≠ v.length := by
  have hHigh := v.isInt.2
  induction subsetIndex with
  | nil => simp [Passable]
  | cons j subsetIndex ih =>
    rw [Passable, List.find?_cons]
    split
    · rename_i hLess
      rw [decide_eq_false (not_not.mpr hLess)]
      exact (and_iff_right (hHeld _ hLess)).trans ih
    · rename_i hLess
      rw [decide_eq_true hLess]
      simp only [Option.mem_def, Option.some.injEq, forall_eq', INT_MAX, uint32] at hHigh ⊢
      omega

/-- The values at a list of indices are checked and copied if and only if no index is the length before one is over
it, and the elements up to there are in the storage. -/
theorem value_iff (v : StoredVector) (subsetIndex : List UInt32) :
    (∀ t : Numeric, v.var = .cardinal t → (v.Checks (v.loadCardinal t.width) 0 subsetIndex (v.value t subsetIndex) ↔
      v.Passable (v.loadCardinal t.width) subsetIndex)) ∧
    (v.var.string = true →
      (v.Checks v.loadString 0 subsetIndex (v.valueStr subsetIndex) ↔ v.Passable v.loadString subsetIndex)) := by
  constructor
  · intro t _
    exact checked_iff (fun _ _ h => loadCardinal_error h) 0 subsetIndex
  · intro hString
    rw [valueStr, if_pos hString]
    exact checked_iff (fun _ _ h => loadString_error h) 0 subsetIndex

/-- Three bytes. -/
def threeBytes : StoredVector := ⟨"v", .cardinal .byte, 3, ⟨by decide, by decide⟩, some [7, 8, 9], []⟩

theorem threeBytes_checked : threeBytes.Checks (threeBytes.loadCardinal 1) 0 [2, 0] (threeBytes.value .byte [2, 0]) :=
  ((value_iff threeBytes [2, 0]).1 .byte rfl).mpr ⟨⟨[9], rfl⟩, ⟨[7], rfl⟩, trivial⟩

/-- The index 3 is let pass, and there is no element 3. -/
theorem index_at_length_read : threeBytes.value .byte [3] = .error .outOfBounds ∧
    ¬ threeBytes.Checks (threeBytes.loadCardinal 1) 0 [3] (threeBytes.value .byte [3]) := by
  refine ⟨by decide, fun h => ?_⟩
  obtain ⟨-, ⟨⟨msg, hRun⟩, -⟩ | ⟨b, hRun, -⟩⟩ := h
  · cases hRun
  · cases hRun

end StoredVector

end Libdap.Dap2
