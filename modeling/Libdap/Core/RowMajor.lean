import Mathlib.Algebra.BigOperators.Group.List.Basic
import Libdap.Core.Fault

/-! # Row-major arrays

The elements of an array stand in the order of their indices, of which the last changes fastest. The memory of the array
is rows of one length, one behind the other, and a loop that copies rows writes its destination from front to back.
-/

namespace Libdap.Core
set_option autoImplicit false

/-- One index from each list, in row-major order. -/
def tuples : List (List Nat) → List (List Nat)
  | [] => [[]]
  | is :: rest => is.flatMap fun i => (tuples rest).map (i :: ·)

theorem tuples_append (xs ys : List (List Nat)) :
    tuples (xs ++ ys) = (tuples xs).flatMap fun s => (tuples ys).map (s ++ ·) := by
  induction xs with
  | nil => simp [tuples]
  | cons is xs ih => simp [tuples, ih, List.map_flatMap, List.flatMap_map, List.flatMap_assoc, Function.comp_def]

theorem tuples_singleton (is : List Nat) : tuples [is] = is.map fun i => [i] := List.map_eq_flatMap.symm

theorem tuples_pair (is js : List Nat) : tuples [is, js] = is.flatMap fun i => js.map fun j => [i, j] := by
  rw [tuples, tuples_singleton]
  simp only [List.map_map, Function.comp_def]

theorem length_tuples (xs : List (List Nat)) : (tuples xs).length = (xs.map List.length).prod := by
  induction xs with
  | nil => rfl
  | cons is xs ih => simp [tuples, List.length_flatMap, ih]

/-! ## Rows -/

variable {α β : Type}

/-- `len` elements from an offset on. -/
def rowAt (src : List α) (i len : Nat) : List α := (src.drop i).take len

theorem length_rowAt {src : List α} {i len : Nat} (h : i + len ≤ src.length) : (rowAt src i len).length = len := by
  rw [rowAt, List.length_take, List.length_drop]
  omega

theorem length_rows {xs : List β} {f : β → List α} {w : Nat} (h : ∀ x ∈ xs, (f x).length = w) :
    (xs.flatMap f).length = xs.length * w := by
  induction xs with
  | nil => simp
  | cons x xs ih =>
    rw [List.flatMap_cons, List.length_append, h x List.mem_cons_self, ih fun y hy => h y (List.mem_cons_of_mem x hy),
      List.length_cons, Nat.succ_mul, Nat.add_comm]

/-- A part of a row. -/
theorem rowAt_rows {xs : List β} {f : β → List α} {w : Nat} (h : ∀ x ∈ xs, (f x).length = w) {i k len : Nat}
    (hi : i < xs.length) (hk : k + len ≤ w) : rowAt (xs.flatMap f) (i * w + k) len = rowAt (f xs[i]) k len := by
  induction xs generalizing i with
  | nil => exact absurd hi (Nat.not_lt_zero i)
  | cons x xs ih =>
    have hx := h x List.mem_cons_self
    rw [List.flatMap_cons]
    cases i with
    | zero =>
      rw [Nat.zero_mul, Nat.zero_add, List.getElem_cons_zero, rowAt, rowAt,
        List.drop_append_of_le_length (by omega), List.take_append_of_le_length (by rw [List.length_drop]; omega)]
    | succ i =>
      have hRest := ih (fun y hy => h y (List.mem_cons_of_mem x hy)) (i := i) (Nat.lt_of_succ_lt_succ hi)
      rw [rowAt] at hRest
      rw [List.getElem_cons_succ, rowAt, Nat.succ_mul, show i * w + w + k = (f x).length + (i * w + k) by omega,
        List.drop_length_add_append]
      exact hRest

theorem rowAt_whole {xs : List β} {f : β → List α} {w : Nat} (h : ∀ x ∈ xs, (f x).length = w) {i : Nat}
    (hi : i < xs.length) : rowAt (xs.flatMap f) (i * w) w = f xs[i] := by
  have hRow := rowAt_rows h hi (k := 0) (Nat.le_of_eq (Nat.zero_add w))
  rw [Nat.add_zero] at hRow
  rw [hRow, rowAt, List.drop_zero, List.take_of_length_le (Nat.le_of_eq (h _ (List.getElem_mem hi)))]

theorem flatMap_range {xs : List β} {f : β → List α} {g : Nat → List α}
    (h : ∀ i (hi : i < xs.length), g i = f xs[i]) : (List.range xs.length).flatMap g = xs.flatMap f := by
  induction xs generalizing g with
  | nil => rfl
  | cons x xs ih =>
    rw [List.length_cons, List.range_succ_eq_map, List.flatMap_cons, List.flatMap_cons, List.flatMap_map,
      h 0 (Nat.succ_pos _), ih fun i hi => h (i + 1) (Nat.succ_lt_succ hi)]
    rfl

theorem flatMap_range_reverse {xs : List β} {f : β → List α} {g : Nat → List α}
    (h : ∀ i (hi : i < xs.length), g i = f xs[i]) :
    (List.range xs.length).reverse.flatMap g = xs.reverse.flatMap f := by
  rw [List.flatMap_reverse, List.flatMap_reverse, flatMap_range (f := List.reverse ∘ f)]
  intro i hi
  exact congrArg List.reverse (h i hi)

/-! ## Copies -/

/-- `memcpy(dest + i, src + j, len)` -/
def memcpy (dest : List α) (i : Nat) (src : List α) (j len : Nat) : Except Fault (List α) :=
  if i + len ≤ dest.length ∧ j + len ≤ src.length then .ok (dest.take i ++ rowAt src j len ++ dest.drop (i + len))
  else .error .outOfBounds

/-- Behind what is written already. -/
theorem memcpy_next {written rest src : List α} {i j len : Nat} (hi : written.length = i) (hRest : len ≤ rest.length)
    (hSrc : j + len ≤ src.length) :
    memcpy (written ++ rest) i src j len = .ok (written ++ rowAt src j len ++ rest.drop len) := by
  rw [memcpy, if_pos ⟨by rw [List.length_append]; omega, hSrc⟩, ← hi, List.take_left, List.drop_length_add_append]

/-- `for (; n > 0; ++i, --n) body(i)` -/
def forFrom (body : Nat → List α → Except Fault (List α)) : Nat → Nat → List α → Except Fault (List α)
  | 0, _, dest => .ok dest
  | n + 1, i, dest => do
    let dest ← body i dest
    forFrom body n (i + 1) dest

/-- Where each round writes a piece of one length behind the piece of the round before. -/
theorem forFrom_ok {body : Nat → List α → Except Fault (List α)} {piece : Nat → List α} {w n i : Nat}
    (written rest : List α) (hPiece : ∀ k, i ≤ k → k < i + n → (piece k).length = w)
    (hBody : ∀ k, i ≤ k → k < i + n → ∀ written rest : List α, written.length = k * w → w ≤ rest.length →
      body k (written ++ rest) = .ok (written ++ piece k ++ rest.drop w))
    (hWritten : written.length = i * w) (hRest : n * w ≤ rest.length) :
    forFrom body n i (written ++ rest) = .ok (written ++ (List.range' i n).flatMap piece ++ rest.drop (n * w)) := by
  induction n generalizing i written rest with
  | zero => simp [forFrom]
  | succ n ih =>
    rw [Nat.succ_mul] at hRest
    have hHere := hPiece i (Nat.le_refl i) (by omega)
    rw [forFrom, hBody i (Nat.le_refl i) (by omega) written rest hWritten (by omega), ok_bind,
      ih _ _ (fun k hk hLt => hPiece k (by omega) (by omega)) (fun k hk hLt => hBody k (by omega) (by omega))
        (by rw [List.length_append, hWritten, hHere, Nat.succ_mul]) (by rw [List.length_drop]; omega),
      List.range'_succ, List.flatMap_cons, List.drop_drop, Nat.succ_mul, Nat.add_comm w, List.append_assoc written]

/-- A destination that is written from end to end. -/
theorem forFrom_all {body : Nat → List α → Except Fault (List α)} (piece : Nat → List α) {w n : Nat} {dest : List α}
    (hDest : dest.length = n * w) (hPiece : ∀ k, k < n → (piece k).length = w)
    (hBody : ∀ k, k < n → ∀ written rest : List α, written.length = k * w → w ≤ rest.length →
      body k (written ++ rest) = .ok (written ++ piece k ++ rest.drop w)) :
    forFrom body n 0 dest = .ok ((List.range n).flatMap piece) := by
  have hLoop := forFrom_ok [] dest (i := 0) (fun k _ hk => hPiece k (by omega))
    (fun k _ hk => hBody k (by omega)) (by rw [Nat.zero_mul]; rfl) (Nat.le_of_eq hDest.symm)
  rw [List.nil_append, List.nil_append, List.drop_eq_nil_of_le (Nat.le_of_eq hDest), List.append_nil,
    ← List.range_eq_range'] at hLoop
  exact hLoop

end Libdap.Core
