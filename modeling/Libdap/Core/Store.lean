import Mathlib.Logic.Function.Basic

/-! # Objects on a heap

A reference is the place at which an object was made; it is never used again for another one.
-/

namespace Libdap.Core
set_option autoImplicit false

structure Store (α : Type) where
  cell : Nat → Option α
  next : Nat
  fresh : ∀ r, next ≤ r → cell r = none

namespace Store

variable {α : Type} (s : Store α)

def empty : Store α := ⟨fun _ => none, 0, fun _ _ => rfl⟩

/-- The new object is at `s.next`. -/
def alloc (c : α) : Store α where
  cell := Function.update s.cell s.next (some c)
  next := s.next + 1
  fresh r hr := by
    rw [Function.update_of_ne (by omega)]
    exact s.fresh r (by omega)

def modify (r : Nat) (f : α → α) : Store α where
  cell := Function.update s.cell r ((s.cell r).map f)
  next := s.next
  fresh q hq := by
    by_cases hSame : q = r
    · subst hSame
      rw [Function.update_self, s.fresh q hq, Option.map_none]
    · rw [Function.update_of_ne hSame]
      exact s.fresh q hq

def free (r : Nat) : Store α where
  cell := Function.update s.cell r none
  next := s.next
  fresh q hq := by
    by_cases hSame : q = r
    · rw [hSame, Function.update_self]
    · rw [Function.update_of_ne hSame]
      exact s.fresh q hq

variable {s}

theorem cell_next : s.cell s.next = none := s.fresh s.next (Nat.le_refl _)

theorem ne_next {r : Nat} {c : α} (h : s.cell r = some c) : r ≠ s.next := by
  rintro rfl
  rw [cell_next] at h
  cases h

theorem lt_next {r : Nat} {c : α} (h : s.cell r = some c) : r < s.next := by
  by_contra hNot
  rw [s.fresh r (Nat.le_of_not_lt hNot)] at h
  cases h

@[simp] theorem alloc_self (c : α) : (s.alloc c).cell s.next = some c := Function.update_self ..

theorem alloc_of_ne {r : Nat} (c : α) (h : r ≠ s.next) : (s.alloc c).cell r = s.cell r :=
  Function.update_of_ne h ..

theorem alloc_of_live {r : Nat} {c : α} (d : α) (h : s.cell r = some c) :
    (s.alloc d).cell r = some c := by
  rw [alloc_of_ne d (ne_next h), h]

theorem modify_self {r : Nat} {c : α} (f : α → α) (h : s.cell r = some c) :
    (s.modify r f).cell r = some (f c) := by
  change Function.update s.cell r _ r = _
  rw [Function.update_self, h, Option.map_some]

theorem modify_of_ne {r q : Nat} (f : α → α) (h : q ≠ r) : (s.modify r f).cell q = s.cell q :=
  Function.update_of_ne h ..

theorem free_of_ne {r q : Nat} (h : q ≠ r) : (s.free r).cell q = s.cell q :=
  Function.update_of_ne h ..

theorem next_free_all (s : Store α) (rs : List Nat) : (rs.foldl free s).next = s.next := by
  induction rs generalizing s with
  | nil => rfl
  | cons r rs ih => exact ih (s.free r)

theorem cell_free_all (s : Store α) (rs : List Nat) (q : Nat) :
    (rs.foldl free s).cell q = if q ∈ rs then none else s.cell q := by
  induction rs generalizing s with
  | nil => simp
  | cons r rs ih =>
    rw [List.foldl_cons, ih]
    by_cases hSame : q = r
    · subst hSame
      simp [free]
    · simp [hSame, free_of_ne hSame]

theorem modify_modify (r : Nat) (f f' : α → α) : (s.modify r f).modify r f' = s.modify r (f' ∘ f) := by
  rw [modify, modify, modify]
  congr 1
  funext q
  by_cases hSame : q = r
  · subst hSame
    simp [Function.comp_def]
  · simp [Function.update_of_ne hSame]

/-- What is at a place after a change of another one, or of this one. -/
theorem modify_cases {r q : Nat} {f : α → α} {c : α} (h : (s.modify r f).cell q = some c) :
    (q = r ∧ ∃ d, s.cell r = some d ∧ c = f d) ∨ (q ≠ r ∧ s.cell q = some c) := by
  by_cases hSame : q = r
  · subst hSame
    left
    refine ⟨rfl, ?_⟩
    cases hCell : s.cell q with
    | none =>
      change Function.update s.cell q _ q = _ at h
      rw [Function.update_self, hCell] at h
      cases h
    | some d =>
      rw [modify_self f hCell] at h
      cases h
      exact ⟨d, rfl, rfl⟩
  · rw [modify_of_ne f hSame] at h
    exact .inr ⟨hSame, h⟩

theorem alloc_cases {q : Nat} {c d : α} (h : (s.alloc d).cell q = some c) :
    (q = s.next ∧ c = d) ∨ s.cell q = some c := by
  by_cases hSame : q = s.next
  · subst hSame
    rw [alloc_self] at h
    cases h
    exact .inl ⟨rfl, rfl⟩
  · rw [alloc_of_ne d hSame] at h
    exact .inr h

end Store

end Libdap.Core
