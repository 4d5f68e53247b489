import Libdap.Constraint.Index
import Libdap.Dap2.Array
import Mathlib.Data.List.Forall2

/-! # process_array_indices -/

namespace Libdap.Constraint
open Core Dap2
set_option autoImplicit false

/-- The dimension has this constraint already; the stop of a `*` is not compared. -/
def sameConstraint (d : Dimension) (index : Index) : Bool :=
  !(d.start != index.start || (d.stop != index.stop && index.stop != -1) || d.stride != index.stride)

/-- One turn of the loop, at the dimension `r`. -/
def processIndex (r : Nat) (index : Index) : Call Dap2.Array Unit := fun a =>
  match a.shape[r]? with
  | none => .error (.Error ("Too many indices in constraint for " ++ a.name ++ ".")) a
  | some d =>
    if a.sendP && !sameConstraint d index then
      .error (.Error ("The Array was already projected differently in the constraint expression: " ++
        a.name ++ ".")) a
    else Array.addConstraint r index.start index.stride index.stop a

def processFrom : Nat → List Index → Call Dap2.Array Unit
  | _, [] => pure ()
  | r, index :: indices => do
    processIndex r index
    processFrom (r + 1) indices

def processArrayIndices (indices : List Index) : Call Dap2.Array Unit := fun a =>
  if a.shape.length ≠ indices.length then
    .error (.Error ("Error: The number of dimensions in the constraint for " ++ a.name ++
      " must match the number in the array.")) a
  else processFrom 0 indices a

/-- The dimension takes the index as a constraint of an array with this `send_p`. -/
structure Takes (sendP : Bool) (d : Dimension) (index : Index) : Prop where
  same : sendP = true → sameConstraint d index = true
  start_lt : index.start < d.size
  stop_lt : d.stopOf index.stop < d.size
  stride_le : index.stride ≤ d.size
  stride_pos : 0 < index.stride
  count_le : Dimension.countOf index.start index.stride (d.stopOf index.stop) ≤ d.size

def constrainedBy (d : Dimension) (index : Index) : Dimension :=
  d.constrained index.start index.stride index.stop

theorem processIndex_ok {r : Nat} {index : Index} {a a' : Dap2.Array} :
    processIndex r index a = .ok () a' ↔
      ∃ d, a.shape[r]? = some d ∧ Takes a.sendP d index ∧
        a' = Array.updateLength { a with shape := a.shape.set r (constrainedBy d index) } := by
  rw [processIndex]
  constructor
  · intro h
    split at h
    · cases h
    · rename_i d hAt
      split at h
      · cases h
      · rename_i hSame
        obtain ⟨e, d', hAt', hTaken, hState⟩ := Array.addConstraint_ok.mp h
        rw [hAt] at hAt'
        cases hAt'
        obtain ⟨hStart, hStop, hStride, hPositive, hCount, rfl⟩ := Dimension.addConstraint_ok.mp hTaken
        refine ⟨d, hAt, ⟨fun hSend => ?_, hStart, hStop, hStride, hPositive, hCount⟩, hState⟩
        rw [hSend] at hSame
        simpa using hSame
  · rintro ⟨d, hAt, hTakes, rfl⟩
    rw [hAt]
    dsimp only
    rw [if_neg]
    · exact Array.addConstraint_ok.mpr ⟨d, _, hAt, Dimension.addConstraint_ok.mpr
        ⟨hTakes.start_lt, hTakes.stop_lt, hTakes.stride_le, hTakes.stride_pos, hTakes.count_le, rfl⟩, rfl⟩
    · intro hDiffers
      rw [Bool.and_eq_true, Bool.not_eq_true'] at hDiffers
      rw [hTakes.same hDiffers.1] at hDiffers
      exact absurd hDiffers.2 (by decide)

theorem processIndex_throws (r : Nat) (index : Index) {a a' : Dap2.Array} {f : Fault}
    (h : processIndex r index a = .error f a') : ∃ msg, f = .Error msg := by
  rw [processIndex] at h
  split at h
  · cases h
    exact ⟨_, rfl⟩
  · rename_i d hAt
    split at h
    · cases h
      exact ⟨_, rfl⟩
    · rw [Array.addConstraint, hAt] at h
      dsimp only at h
      split at h
      · rename_i f' hRefused
        cases h
        exact ⟨_, Dimension.addConstraint_error hRefused⟩
      · cases h

theorem processFrom_throws (r : Nat) (indices : List Index) : Call.ThrowsError (processFrom r indices) := by
  induction indices generalizing r with
  | nil => exact .pure ()
  | cons index indices ih =>
    exact .bind (fun _ _ _ h => processIndex_throws r index h) fun _ => ih (r + 1)

theorem processArrayIndices_throws (indices : List Index) :
    Call.ThrowsError (processArrayIndices indices) := by
  intro a a' f h
  rw [processArrayIndices] at h
  split at h
  · cases h
    exact ⟨_, rfl⟩
  · exact processFrom_throws 0 indices a a' f h

/-- An array on which the constraints `indices` stand. -/
structure Constrained (a a' : Dap2.Array) (shape : List Dimension) (indices : List Index) : Prop where
  shape_eq : a'.shape = shape
  name_eq : a'.name = a.name
  sendP_eq : a'.sendP = a.sendP
  length_eq : indices ≠ [] → a'.updateLength = a'

/-- The dimensions from `r` on take the indices, the ones before it stay. -/
theorem processFrom_ok {indices : List Index} {front ds : List Dimension} {a a' : Dap2.Array}
    (hShape : a.shape = front ++ ds) (hLength : ds.length = indices.length)
    (h : processFrom front.length indices a = .ok () a') :
    List.Forall₂ (Takes a.sendP) ds indices ∧
      Constrained a a' (front ++ List.zipWith constrainedBy ds indices) indices := by
  induction indices generalizing front ds a with
  | nil =>
    rw [List.eq_nil_of_length_eq_zero hLength] at hShape ⊢
    obtain ⟨_, rfl⟩ := Call.pure_ok.mp h
    exact ⟨.nil, hShape, rfl, rfl, fun hNil => absurd rfl hNil⟩
  | cons index indices ih =>
    cases ds with
    | nil => cases hLength
    | cons d ds =>
      obtain ⟨_, a₁, hFirst, hRest⟩ := Call.bind_ok.mp h
      obtain ⟨d', hAt, hTakes, hState⟩ := processIndex_ok.mp hFirst
      rw [hShape, List.getElem?_append_right (Nat.le_refl _), Nat.sub_self] at hAt
      cases hAt
      have hSet : a₁.shape = (front ++ [constrainedBy d index]) ++ ds := by
        rw [hState, Array.updateLength_shape, hShape, List.set_append_right _ _ (Nat.le_refl _),
          Nat.sub_self, List.append_assoc]
        rfl
      have hSend : a₁.sendP = a.sendP := by rw [hState, Array.updateLength_sendP]
      obtain ⟨hAll, hEnd⟩ := ih hSet (Nat.succ.inj hLength) (by
        rw [List.length_append, List.length_singleton]
        exact hRest)
      rw [hSend] at hAll
      refine ⟨.cons hTakes hAll, ?_, ?_, hEnd.sendP_eq.trans hSend, fun _ => ?_⟩
      · rw [hEnd.shape_eq, List.zipWith_cons_cons, List.append_assoc]
        rfl
      · rw [hEnd.name_eq, hState, Array.updateLength_name]
      · cases indices with
        | nil =>
          obtain ⟨_, rfl⟩ := Call.pure_ok.mp hRest
          rw [hState, Array.updateLength_updateLength]
        | cons next indices => exact hEnd.length_eq (List.cons_ne_nil next indices)

theorem processFrom_of_takes {indices : List Index} {front ds : List Dimension} {a : Dap2.Array}
    (hShape : a.shape = front ++ ds) (h : List.Forall₂ (Takes a.sendP) ds indices) :
    ∃ a', processFrom front.length indices a = .ok () a' := by
  induction indices generalizing front ds a with
  | nil => exact ⟨a, rfl⟩
  | cons index indices ih =>
    cases h with
    | @cons d _ ds _ hTakes hAll =>
      have hAt : a.shape[front.length]? = some d := by
        rw [hShape, List.getElem?_append_right (Nat.le_refl _), Nat.sub_self]
        rfl
      obtain ⟨a', hRest⟩ := @ih (front ++ [constrainedBy d index]) ds
        (Array.updateLength { a with shape := a.shape.set front.length (constrainedBy d index) })
        (by
          rw [Array.updateLength_shape, hShape, List.set_append_right _ _ (Nat.le_refl _),
            Nat.sub_self, List.append_assoc]
          rfl) hAll
      rw [List.length_append, List.length_singleton] at hRest
      exact ⟨a', Call.bind_ok.mpr ⟨(), _, processIndex_ok.mpr ⟨d, hAt, hTakes, rfl⟩, hRest⟩⟩

theorem processArrayIndices_ok {indices : List Index} {a a' : Dap2.Array}
    (h : processArrayIndices indices a = .ok () a') :
    List.Forall₂ (Takes a.sendP) a.shape indices ∧
      Constrained a a' (List.zipWith constrainedBy a.shape indices) indices := by
  rw [processArrayIndices] at h
  split at h
  · cases h
  · rename_i hLength
    exact @processFrom_ok indices [] a.shape a a' rfl (not_not.mp hLength) h

theorem processArrayIndices_of_takes {indices : List Index} {a : Dap2.Array}
    (h : List.Forall₂ (Takes a.sendP) a.shape indices) :
    ∃ a', processArrayIndices indices a = .ok () a' := by
  rw [processArrayIndices, if_neg (not_not.mpr h.length_eq)]
  exact @processFrom_of_takes indices [] a.shape a rfl h

end Libdap.Constraint
