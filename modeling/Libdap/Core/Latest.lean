import Mathlib.Data.List.Basic

/-! # Folds that start again

A fold over a list in which some elements set a value whatever it was before, and others change it only in part. What
holds of the value in the end depends on the elements from the last one on that set it.
-/

namespace Libdap.Latest
set_option autoImplicit false

variable {α σ : Type}

/-- The last element that `p` holds of. -/
def latest (p : α → Bool) : List α → Option α
  | [] => none
  | a :: as => (latest p as).or (if p a then some a else none)

/-- The list from the last element on that `p` holds of; all of it, if there is none. -/
def since (p : α → Bool) : List α → List α
  | [] => []
  | a :: as => if as.any p then since p as else a :: as

theorem since_of_none {p : α → Bool} {as : List α} (h : as.any p = false) : since p as = as := by
  cases as with
  | nil => rfl
  | cons a as =>
    rw [List.any_cons, Bool.or_eq_false_iff] at h
    rw [since, h.2]
    rfl

theorem latest_eq_none {p : α → Bool} {as : List α} : latest p as = none ↔ as.any p = false := by
  induction as with
  | nil => simp [latest]
  | cons a as ih =>
    rw [latest, Option.or_eq_none_iff, ih, List.any_cons, Bool.or_eq_false_iff, and_comm]
    simp

/-- How one element changes a property of the value: it sets it, or it keeps it from becoming true. -/
structure Step (step : σ → α → σ) (good : σ → Prop) (sets : α → Bool) (ok : α → Prop) : Prop where
  set : ∀ s a, sets a = true → (good (step s a) ↔ ok a)
  keep : ∀ s a, sets a = false → (good (step s a) ↔ good s ∧ ok a)

theorem Step.foldl {step : σ → α → σ} {good : σ → Prop} {sets : α → Bool} {ok : α → Prop}
    (h : Step step good sets ok) (as : List α) (s : σ) :
    good (as.foldl step s) ↔ (as.any sets = true ∨ good s) ∧ ∀ a ∈ since sets as, ok a := by
  induction as generalizing s with
  | nil => simp [since]
  | cons a as ih =>
    rw [List.foldl_cons, ih, since, List.any_cons]
    cases hRest : as.any sets with
    | true => simp
    | false =>
      rw [since_of_none hRest]
      cases hHead : sets a with
      | true => simp [h.set s a hHead]
      | false => simp [h.keep s a hHead, and_assoc]

end Libdap.Latest
