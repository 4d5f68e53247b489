import Libdap.Core.Int32
import Libdap.Core.Fault
import Libdap.Dap2.RequestSize

/-! # The number of leaves of a variable

`Grid::element_count` adds the leaves of a map to the iterator over the maps, where its siblings add to the count.
-/

namespace Libdap.Dap2
open Core
set_option autoImplicit false

/-- A variable with what `element_count` looks at: of an Array its first element, and for an Array of constructors
whether `_vec[0]`, of the type of the template, is there. -/
inductive CountedVariable
  | simple
  | cardinalArray (type : Numeric) (buf : Option Nat)
  | stringArray (size : Nat)
  | compoundArray (element : CountedVariable) (filled : Bool)
  | fields (vars : List CountedVariable)
  | grid (arrayVar : Option CountedVariable) (mapVars : List CountedVariable)

namespace CountedVariable

/-- What `dynamic_cast<Array*>` finds to be one. -/
def isArray : CountedVariable → Bool
  | cardinalArray _ _ | stringArray _ | compoundArray _ _ => true
  | _ => false

/-- An addition of `int`s that are not negative. -/
def addInt (i n : Nat) : Except Fault Nat := if (i : Int) + n ≤ INT_MAX then .ok (i + n) else .error .undefined

mutual

/-- `element_count(true)` -/
def elementCount : CountedVariable → Except Fault Nat
  | simple => .ok 1
  | cardinalArray _ none => .error (.InternalErr "The incoming pointer does not contain any data.")
  | cardinalArray t (some n) => if t.width ≤ n then .ok 1 else .error .outOfBounds
  | stringArray n => if 0 < n then .ok 1 else .error .outOfBounds
  | compoundArray element filled => if filled then elementCount element else .error .outOfBounds
  | fields vars => countFields 0 vars
  | grid none mapVars => do
    let _ ← walkMaps 0 mapVars
    .error (.InternalErr "bad Cast")
  | grid (some arrayVar) mapVars => do
    let _ ← walkMaps 0 mapVars
    -- `get_array` does not return a null pointer, so "No Grid array!" is said of none.
    if isArray arrayVar then do
      let n ← elementCount arrayVar
      addInt 0 n
    else .error (.InternalErr "bad Cast")

/-- The loop over the variables of a Structure or a Sequence. -/
def countFields : Nat → List CountedVariable → Except Fault Nat
  | i, [] => .ok i
  | i, v :: vars => do
    let n ← elementCount v
    let i ← addInt i n
    countFields i vars

/-- The loop over the maps, where the iterator is moved so many places on before the next one is looked at. -/
def walkMaps : Nat → List CountedVariable → Except Fault Unit
  | 0, [] => .ok ()
  | _ + 1, [] => .error .outOfBounds
  | 0, v :: mapVars => do
    let n ← elementCount v
    walkMaps n mapVars
  | skip + 1, _ :: mapVars => walkMaps skip mapVars

end

mutual

/-- The leaves of a variable: those of the parts of a constructor, and of an Array those of one element. -/
def leaves : CountedVariable → Nat
  | simple => 1
  | cardinalArray _ _ => 1
  | stringArray _ => 1
  | compoundArray element _ => leaves element
  | fields vars => leavesOf vars
  | grid arrayVar mapVars => (match arrayVar with | none => 0 | some v => leaves v) + leavesOf mapVars

def leavesOf : List CountedVariable → Nat
  | [] => 0
  | v :: vars => leaves v + leavesOf vars

end

mutual

/-- Every Array has a first element, and every Grid an Array and no leaves in its maps. -/
def Countable : CountedVariable → Prop
  | simple => True
  | cardinalArray t buf => ∃ n ∈ buf, t.width ≤ n
  | stringArray n => 0 < n
  | compoundArray element filled => filled = true ∧ Countable element
  | fields vars => AllCountable vars ∧ (leavesOf vars : Int) ≤ INT_MAX
  | grid none _ => False
  | grid (some arrayVar) mapVars =>
    (isArray arrayVar = true ∧ Countable arrayVar) ∧ AllCountable mapVars ∧ leavesOf mapVars = 0

def AllCountable : List CountedVariable → Prop
  | [] => True
  | v :: vars => Countable v ∧ AllCountable vars

end

theorem addInt_eq_ok {i n m : Nat} : addInt i n = .ok m ↔ m = i + n ∧ (m : Int) ≤ INT_MAX := by
  rw [addInt]
  split
  · rename_i hSmall
    constructor
    · intro h
      cases h
      exact ⟨rfl, by omega⟩
    · rintro ⟨rfl, -⟩
      rfl
  · rename_i hLarge
    constructor
    · intro h
      cases h
    · rintro ⟨rfl, hSmall⟩
      omega

mutual

/-- No more is counted than there is. -/
theorem elementCount_le : (v : CountedVariable) → (n : Nat) → elementCount v = .ok n →
    n ≤ leaves v ∧ (n : Int) ≤ INT_MAX
  | simple, n, h => by
    cases h
    exact ⟨Nat.le_refl 1, by decide⟩
  | cardinalArray t none, n, h => by cases h
  | cardinalArray t (some m), n, h => by
    rw [elementCount] at h
    split at h
    · cases h
      exact ⟨Nat.le_refl 1, by decide⟩
    · cases h
  | stringArray m, n, h => by
    rw [elementCount] at h
    split at h
    · cases h
      exact ⟨Nat.le_refl 1, by decide⟩
    · cases h
  | compoundArray element filled, n, h => by
    rw [elementCount] at h
    split at h
    · exact elementCount_le element n h
    · cases h
  | fields vars, n, h => by
    obtain ⟨hLe, hSmall⟩ := countFields_le vars 0 n (by decide) h
    rw [leaves]
    exact ⟨by omega, hSmall⟩
  | grid none mapVars, n, h => by
    obtain ⟨_, -, hError⟩ := bind_eq_ok h
    cases hError
  | grid (some arrayVar) mapVars, n, h => by
    obtain ⟨_, -, h⟩ := bind_eq_ok h
    split at h
    · obtain ⟨m, hArray, h⟩ := bind_eq_ok h
      obtain ⟨rfl, hSmall⟩ := addInt_eq_ok.mp h
      obtain ⟨hLe, -⟩ := elementCount_le arrayVar m hArray
      rw [leaves]
      exact ⟨by omega, hSmall⟩
    · cases h

theorem countFields_le : (vars : List CountedVariable) → (i n : Nat) → (i : Int) ≤ INT_MAX →
    countFields i vars = .ok n → n ≤ i + leavesOf vars ∧ (n : Int) ≤ INT_MAX
  | [], i, n, hi, h => by
    cases h
    exact ⟨Nat.le_refl _, hi⟩
  | v :: vars, i, n, _, h => by
    obtain ⟨m, hFirst, h⟩ := bind_eq_ok h
    obtain ⟨j, hAdd, h⟩ := bind_eq_ok h
    obtain ⟨rfl, hSmall⟩ := addInt_eq_ok.mp hAdd
    obtain ⟨hLe, -⟩ := elementCount_le v m hFirst
    obtain ⟨hRest, hBound⟩ := countFields_le vars (i + m) n hSmall h
    rw [leavesOf]
    exact ⟨by omega, hBound⟩

end

mutual

/-- Before the array part is counted every map but those that were stepped over has been. -/
theorem walkMaps_iff : (mapVars : List CountedVariable) → leavesOf mapVars = 0 →
    (walkMaps 0 mapVars = .ok () ↔ AllCountable mapVars)
  | [], _ => ⟨fun _ => trivial, fun _ => rfl⟩
  | v :: mapVars, hNone => by
    rw [leavesOf] at hNone
    have hFirst : leaves v = 0 := by omega
    have hRest : leavesOf mapVars = 0 := by omega
    rw [walkMaps, AllCountable]
    constructor
    · intro h
      obtain ⟨n, hCount, h⟩ := bind_eq_ok h
      obtain ⟨hLe, -⟩ := elementCount_le v n hCount
      obtain rfl : n = leaves v := by omega
      rw [hFirst] at h
      exact ⟨(counted_iff v).mp hCount, (walkMaps_iff mapVars hRest).mp h⟩
    · rintro ⟨hCount, hMaps⟩
      rw [(counted_iff v).mpr hCount, ok_bind, hFirst]
      exact (walkMaps_iff mapVars hRest).mpr hMaps

theorem countFields_iff : (vars : List CountedVariable) → (i : Nat) → (i : Int) ≤ INT_MAX →
    (countFields i vars = .ok (i + leavesOf vars) ↔ AllCountable vars ∧ ((i + leavesOf vars : Nat) : Int) ≤ INT_MAX)
  | [], i, hi => ⟨fun _ => ⟨trivial, hi⟩, fun _ => rfl⟩
  | v :: vars, i, hi => by
    rw [countFields, leavesOf, AllCountable]
    constructor
    · intro h
      obtain ⟨m, hCount, h⟩ := bind_eq_ok h
      obtain ⟨j, hAdd, h⟩ := bind_eq_ok h
      obtain ⟨rfl, hSmall⟩ := addInt_eq_ok.mp hAdd
      obtain ⟨hLe, -⟩ := elementCount_le v m hCount
      obtain ⟨hRest, hBound⟩ := countFields_le vars (i + m) _ hSmall h
      obtain rfl : m = leaves v := by omega
      rw [← Nat.add_assoc] at h
      obtain ⟨hVars, -⟩ := (countFields_iff vars (i + leaves v) hSmall).mp h
      exact ⟨⟨(counted_iff v).mp hCount, hVars⟩, hBound⟩
    · rintro ⟨⟨hCount, hVars⟩, hBound⟩
      have hSmall : ((i + leaves v : Nat) : Int) ≤ INT_MAX := by omega
      rw [(counted_iff v).mpr hCount, ok_bind, addInt_eq_ok.mpr ⟨rfl, hSmall⟩, ok_bind, ← Nat.add_assoc]
      exact (countFields_iff vars (i + leaves v) hSmall).mpr ⟨hVars, by omega⟩

theorem counted_iff : (v : CountedVariable) → (elementCount v = .ok (leaves v) ↔ Countable v)
  | simple => ⟨fun _ => trivial, fun _ => rfl⟩
  | cardinalArray t none => by
    rw [elementCount, Countable]
    constructor
    · intro h
      cases h
    · rintro ⟨n, hNone, -⟩
      cases hNone
  | cardinalArray t (some m) => by
    rw [elementCount, Countable, leaves]
    constructor
    · intro h
      split at h
      · rename_i hWidth
        exact ⟨m, rfl, hWidth⟩
      · cases h
    · rintro ⟨n, hSome, hWidth⟩
      cases hSome
      rw [if_pos hWidth]
  | stringArray m => by
    rw [elementCount, Countable, leaves]
    constructor
    · intro h
      split at h
      · assumption
      · cases h
    · intro hFirst
      rw [if_pos hFirst]
  | compoundArray element filled => by
    rw [elementCount, Countable, leaves]
    constructor
    · intro h
      split at h
      · rename_i hFilled
        exact ⟨hFilled, (counted_iff element).mp h⟩
      · cases h
    · rintro ⟨hFilled, hCount⟩
      rw [if_pos hFilled]
      exact (counted_iff element).mpr hCount
  | fields vars => by
    have hFields := countFields_iff vars 0 (by decide)
    rw [Nat.zero_add] at hFields
    exact hFields
  | grid none mapVars => by
    rw [elementCount, Countable]
    constructor
    · intro h
      obtain ⟨_, -, hError⟩ := bind_eq_ok h
      cases hError
    · intro h
      cases h
  | grid (some arrayVar) mapVars => by
    rw [elementCount, Countable, leaves]
    constructor
    · intro h
      obtain ⟨_, hWalk, h⟩ := bind_eq_ok h
      split at h
      · rename_i hCast
        obtain ⟨n, hArray, h⟩ := bind_eq_ok h
        obtain ⟨hAdd, -⟩ := addInt_eq_ok.mp h
        obtain ⟨hLe, -⟩ := elementCount_le arrayVar n hArray
        -- Only the array part was added, so nothing is left for the maps.
        have hNone : leavesOf mapVars = 0 := by omega
        obtain rfl : n = leaves arrayVar := by omega
        exact ⟨⟨hCast, (counted_iff arrayVar).mp hArray⟩, (walkMaps_iff mapVars hNone).mp hWalk, hNone⟩
      · cases h
    · rintro ⟨⟨hCast, hArray⟩, hMaps, hNone⟩
      have hCount := (counted_iff arrayVar).mpr hArray
      obtain ⟨-, hSmall⟩ := elementCount_le arrayVar _ hCount
      rw [(walkMaps_iff mapVars hNone).mpr hMaps, ok_bind, if_pos hCast, hCount, ok_bind]
      exact addInt_eq_ok.mpr ⟨by omega, by omega⟩

end

/-- What is asked of `element_count(true)`, the maps of a Grid counted with the rest. -/
theorem element_count_iff (v : CountedVariable) : elementCount v = .ok (leaves v) ↔ Countable v :=
  counted_iff v

/-- The iterator is behind the only map before it is moved on to the next, and of two maps it steps over one. -/
theorem map_leaves_added_to_iterator :
    elementCount (grid (some (stringArray 1)) [stringArray 1]) = .error .outOfBounds ∧
      elementCount (grid (some (stringArray 1)) [stringArray 1, stringArray 1]) = .ok 1 ∧
      leaves (grid (some (stringArray 1)) [stringArray 1, stringArray 1]) = 3 :=
  ⟨rfl, rfl, rfl⟩

end CountedVariable

end Libdap.Dap2
