import Libdap.Core.Call
import Libdap.Core.Int32

/-! # The shape of an Array and the constraint on each dimension -/

namespace Libdap.Dap2
open Core
set_option autoImplicit false

structure Dimension where
  size : Int
  name : String
  start : Int
  stop : Int
  stride : Int
  cSize : Int
  deriving DecidableEq, Repr

structure Array where
  name : String
  shape : List Dimension
  length : Int
  sendP : Bool
  deriving DecidableEq, Repr

def arraySss : String :=
  "Invalid constraint parameters: At least one of the start, stride or stop \n" ++
    "specified do not match the array variable."

namespace Dimension

/-- What `append_dim` and `reset_constraint` make of a dimension: all of it. -/
def whole (d : Dimension) : Dimension :=
  { d with start := 0, stop := d.size - 1, stride := 1, cSize := d.size }

/-- A stop of -1 is the last index. -/
def stopOf (d : Dimension) (stop : Int) : Int := if stop = -1 then d.size - 1 else stop

def countOf (start stride stop : Int) : Int := int32 (Int.tdiv (int32 (stop - start)) stride + 1)

def addConstraint (d : Dimension) (start stride stop : Int) : Except Fault Dimension :=
  let stop := d.stopOf stop
  if start ≥ d.size ∨ stop ≥ d.size ∨ stride > d.size ∨ stride ≤ 0 then .error (.Error arraySss)
  else if countOf start stride stop > d.size then .error (.Error arraySss)
  else .ok { d with start := start, stop := stop, stride := stride, cSize := countOf start stride stop }

/-- The dimension under a constraint that was taken. -/
def constrained (d : Dimension) (start stride stop : Int) : Dimension :=
  { d with
    start := start
    stop := d.stopOf stop
    stride := stride
    cSize := countOf start stride (d.stopOf stop) }

@[simp] theorem constrained_size (d : Dimension) (start stride stop : Int) :
    (d.constrained start stride stop).size = d.size := rfl

theorem addConstraint_ok {d d' : Dimension} {start stride stop : Int} :
    d.addConstraint start stride stop = .ok d' ↔
      start < d.size ∧ d.stopOf stop < d.size ∧ stride ≤ d.size ∧ 0 < stride ∧
        countOf start stride (d.stopOf stop) ≤ d.size ∧ d' = d.constrained start stride stop := by
  rw [addConstraint]
  constructor
  · intro h
    split at h
    · cases h
    · rename_i hInside
      split at h
      · cases h
      · rename_i hCount
        cases h
        simp only [ge_iff_le, gt_iff_lt, not_or, not_le, not_lt] at hInside hCount
        exact ⟨hInside.1, hInside.2.1, hInside.2.2.1, hInside.2.2.2, hCount, rfl⟩
  · rintro ⟨hStart, hStop, hStride, hPositive, hCount, rfl⟩
    rw [if_neg (by omega), if_neg (by omega)]
    rfl

theorem addConstraint_error {d : Dimension} {start stride stop : Int} {f : Fault}
    (h : d.addConstraint start stride stop = .error f) : f = .Error arraySss := by
  rw [addConstraint] at h
  split at h
  · cases h
    rfl
  · split at h
    · cases h
      rfl
    · cases h

end Dimension

namespace Array

/-- What a dimension counts for in the length. -/
def factor (d : Dimension) : Int := if d.cSize > 0 then d.cSize else 1

def updateLength (a : Array) : Array :=
  { a with length := a.shape.foldl (fun length d => int32 (length * factor d)) 1 }

/-- `reset_constraint`: the length of -1 stays when there are no dimensions. -/
def resetConstraint (a : Array) : Array :=
  if a.shape.isEmpty then { a with length := -1 }
  else updateLength { a with shape := a.shape.map Dimension.whole }

/-- `add_constraint` on the dimension that the iterator is at. -/
def addConstraint (i : Nat) (start stride stop : Int) : Call Array Unit := fun a =>
  match a.shape[i]? with
  | none => .error .undefined a
  | some d =>
    match d.addConstraint start stride stop with
    | .error f => .error f a
    | .ok d => .ok () (updateLength { a with shape := a.shape.set i d })

@[simp] theorem updateLength_shape (a : Array) : a.updateLength.shape = a.shape := rfl

@[simp] theorem updateLength_sendP (a : Array) : a.updateLength.sendP = a.sendP := rfl

@[simp] theorem updateLength_name (a : Array) : a.updateLength.name = a.name := rfl

theorem updateLength_updateLength (a : Array) : a.updateLength.updateLength = a.updateLength := rfl

@[simp] theorem resetConstraint_shape (a : Array) :
    a.resetConstraint.shape = a.shape.map Dimension.whole := by
  rw [resetConstraint]
  split
  · rename_i hEmpty
    have hNone := List.isEmpty_iff.mp hEmpty
    rw [hNone, List.map_nil]
  · rfl

@[simp] theorem resetConstraint_sendP (a : Array) : a.resetConstraint.sendP = a.sendP := by
  rw [resetConstraint]
  split
  · rfl
  · rfl

theorem addConstraint_ok {i : Nat} {start stride stop : Int} {a a' : Array} :
    addConstraint i start stride stop a = .ok () a' ↔
      ∃ d d', a.shape[i]? = some d ∧ d.addConstraint start stride stop = .ok d' ∧
        a' = updateLength { a with shape := a.shape.set i d' } := by
  rw [addConstraint]
  constructor
  · intro h
    split at h
    · cases h
    · rename_i d hAt
      split at h
      · cases h
      · rename_i d' hTaken
        cases h
        exact ⟨d, d', hAt, hTaken, rfl⟩
  · rintro ⟨d, d', hAt, hTaken, rfl⟩
    rw [hAt]
    dsimp only
    rw [hTaken]

end Array

end Libdap.Dap2
