import Libdap.Core.RowMajor
import Mathlib.Algebra.BigOperators.Group.List.Lemmas
import Mathlib.Algebra.BigOperators.Ring.List
import Mathlib.Data.List.Forall2
import Mathlib.Tactic.Ring

/-! # Counters

A counter has a wheel for each of its digits, and a wheel that has gone around moves the next one. Read from the slow end
its digits are the indices of an array, and the counter goes over them in row-major order.
-/

namespace Libdap.Core
set_option autoImplicit false

theorem prod_pos {ns : List Nat} (h : ∀ n ∈ ns, 0 < n) : 0 < ns.prod :=
  Nat.pos_of_ne_zero (List.prod_ne_zero fun hZero => Nat.lt_irrefl 0 (h 0 hZero))

/-! ## Digits -/

namespace Odometer

/-- The digits of a number, the fastest first. -/
def digits : List Nat → Nat → List Nat
  | [], _ => []
  | n :: ns, k => k % n :: digits ns (k / n)

def value : List Nat → List Nat → Nat
  | n :: ns, d :: ds => d + n * value ns ds
  | _, _ => 0

/-- One step forward, and whether some wheel has not gone around. -/
def step : List Nat → List Nat → List Nat × Bool
  | n :: ns, d :: ds => if d + 1 = n then (0 :: (step ns ds).1, (step ns ds).2) else ((d + 1) :: ds, true)
  | _, _ => ([], false)

attribute [local grind =] digits value step

variable {ns ms ds : List Nat} {n k : Nat}

@[simp] theorem length_digits (ns : List Nat) (k : Nat) : (digits ns k).length = ns.length := by
  induction ns generalizing k with
  | nil => rfl
  | cons n ns ih => rw [digits, List.length_cons, List.length_cons, ih]

theorem digits_zero (ns : List Nat) : digits ns 0 = List.replicate ns.length 0 := by
  induction ns with
  | nil => rfl
  | cons n ns ih => rw [digits, Nat.zero_mod, Nat.zero_div, ih, List.length_cons, List.replicate_succ]

theorem value_digits (h : k < ns.prod) : value ns (digits ns k) = k := by
  induction ns generalizing k with
  | nil =>
    rw [List.prod_nil] at h
    exact (Nat.lt_one_iff.mp h).symm
  | cons n ns ih =>
    rw [List.prod_cons] at h
    rw [digits, value, ih (Nat.div_lt_of_lt_mul h), Nat.mod_add_div]

theorem digits_mod (ns : List Nat) (k : Nat) : digits ns (k % ns.prod) = digits ns k := by
  induction ns generalizing k with
  | nil => rfl
  | cons n ns ih => rw [digits, digits, List.prod_cons, Nat.mod_mul_right_mod, Nat.mod_mul_right_div_self, ih]

theorem digits_append (ns ms : List Nat) (k : Nat) : digits (ns ++ ms) k = digits ns k ++ digits ms (k / ns.prod) := by
  induction ns generalizing k with
  | nil => rw [List.nil_append, List.prod_nil, Nat.div_one, digits, List.nil_append]
  | cons n ns ih =>
    rw [List.cons_append, digits, digits, ih, List.prod_cons, Nat.div_div_eq_div_mul, List.cons_append]

theorem digits_lt (hPos : ∀ n ∈ ns, 0 < n) (k : Nat) : List.Forall₂ (· < ·) (digits ns k) ns := by
  induction ns generalizing k with
  | nil => exact .nil
  | cons n ns ih =>
    obtain ⟨hn, hRest⟩ := List.forall_mem_cons.mp hPos
    exact .cons (Nat.mod_lt k hn) (ih hRest (k / n))

theorem digits_value (h : List.Forall₂ (· < ·) ds ns) : digits ns (value ns ds) = ds := by
  induction h with
  | nil => rfl
  | @cons d n ds ns hd _ ih =>
    rw [value, digits, Nat.add_mul_mod_self_left, Nat.mod_eq_of_lt hd, Nat.add_mul_div_left _ _ (Nat.zero_lt_of_lt hd),
      Nat.div_eq_of_lt hd, Nat.zero_add, ih]

theorem value_lt (h : List.Forall₂ (· < ·) ds ns) : value ns ds < ns.prod := by
  induction h with
  | nil => exact Nat.one_pos
  | @cons d n ds ns hd _ ih =>
    rw [value, List.prod_cons]
    calc d + n * value ns ds < n + n * value ns ds := Nat.add_lt_add_right hd _
      _ = n * (value ns ds + 1) := by ring
      _ ≤ n * ns.prod := Nat.mul_le_mul_left n ih

/-- A step counts one further, and from the last number to the first. -/
theorem step_digits (hPos : ∀ n ∈ ns, 0 < n) (k : Nat) :
    step ns (digits ns k) = (digits ns (k + 1), decide ((k + 1) % ns.prod ≠ 0)) := by
  induction ns generalizing k with
  | nil => simp [step, digits, Nat.mod_one]
  | cons n ns ih =>
    obtain ⟨hn, hRest⟩ := List.forall_mem_cons.mp hPos
    rw [digits, step, digits, List.prod_cons]
    by_cases hAround : k % n + 1 = n
    · have hMod : (k + 1) % n = 0 := by rw [← Nat.mod_add_mod, hAround, Nat.mod_self]
      have hDiv : (k + 1) / n = k / n + 1 := by
        rw [Nat.succ_div, if_pos (Nat.dvd_of_mod_eq_zero hMod)]
      have hAll : (k + 1) % (n * ns.prod) = n * ((k / n + 1) % ns.prod) := by
        rw [Nat.mod_mul, hMod, hDiv, Nat.zero_add]
      rw [if_pos hAround, ih hRest, hMod, hDiv, hAll]
      have hZero : (n * ((k / n + 1) % ns.prod) ≠ 0) ↔ (k / n + 1) % ns.prod ≠ 0 := by
        rw [Nat.mul_ne_zero_iff]
        exact and_iff_right hn.ne'
      exact Prod.ext rfl (decide_eq_decide.mpr hZero.symm)
    · have hLess : k % n + 1 < n := lt_of_le_of_ne (Nat.mod_lt k hn) hAround
      have hMod : (k + 1) % n = k % n + 1 := by
        rw [← Nat.mod_add_mod, Nat.mod_eq_of_lt hLess]
      have hDiv : (k + 1) / n = k / n := by
        have hNot : ¬n ∣ k + 1 := fun hDvd => by
          rw [Nat.mod_eq_zero_of_dvd hDvd] at hMod
          exact absurd hMod.symm (Nat.succ_ne_zero _)
        rw [Nat.succ_div, if_neg hNot, Nat.add_zero]
      have hMore : (k + 1) % (n * ns.prod) ≠ 0 := by
        rw [Nat.mod_mul, hMod]
        omega
      rw [if_neg hAround, hMod, hDiv, decide_eq_true hMore]

end Odometer

/-! ## Indices -/

/-- The place of the element with some indices. -/
def flat : List Nat → List Nat → Nat
  | _ :: shape, i :: is => i * shape.prod + flat shape is
  | _, _ => 0

/-- The indices of the element at a place. -/
def indices (shape : List Nat) (k : Nat) : List Nat := (Odometer.digits shape.reverse k).reverse

variable {shape : List Nat} {k : Nat}

theorem indices_cons (n : Nat) (shape : List Nat) (k : Nat) :
    indices (n :: shape) k = k / shape.prod % n :: indices shape k := by
  rw [indices, List.reverse_cons, Odometer.digits_append, List.prod_reverse, List.reverse_append, indices]
  rfl

theorem indices_mod (shape : List Nat) (k : Nat) : indices shape (k % shape.prod) = indices shape k := by
  rw [indices, ← List.prod_reverse, Odometer.digits_mod, indices]

@[simp] theorem length_indices (shape : List Nat) (k : Nat) : (indices shape k).length = shape.length := by
  rw [indices, List.length_reverse, Odometer.length_digits, List.length_reverse]

theorem indices_lt (hPos : ∀ n ∈ shape, 0 < n) (k : Nat) : List.Forall₂ (· < ·) (indices shape k) shape := by
  rw [← List.forall₂_reverse_iff, indices, List.reverse_reverse]
  exact Odometer.digits_lt (fun n hn => hPos n (List.mem_reverse.mp hn)) k

theorem flat_indices (h : k < shape.prod) : flat shape (indices shape k) = k := by
  induction shape generalizing k with
  | nil =>
    rw [List.prod_nil] at h
    exact (Nat.lt_one_iff.mp h).symm
  | cons n shape ih =>
    rw [List.prod_cons] at h
    have hPos : 0 < shape.prod := Nat.pos_of_ne_zero fun hZero => by
      rw [hZero, Nat.mul_zero] at h
      exact absurd h (Nat.not_lt_zero k)
    rw [indices_cons, flat, ← indices_mod, ih (Nat.mod_lt k hPos),
      Nat.mod_eq_of_lt (Nat.div_lt_of_lt_mul (by rwa [Nat.mul_comm])),
      Nat.div_add_mod']

theorem value_append {ns ds : List Nat} (h : ds.length = ns.length) (n d : Nat) :
    Odometer.value (ns ++ [n]) (ds ++ [d]) = Odometer.value ns ds + ns.prod * d := by
  induction ds generalizing ns with
  | nil =>
    rw [List.length_eq_zero_iff.mp h.symm]
    simp [Odometer.value]
  | cons e ds ih =>
    cases ns with
    | nil => cases h
    | cons m ns =>
      rw [List.cons_append, List.cons_append, Odometer.value, Odometer.value, ih (Nat.succ.inj h), List.prod_cons]
      ring

theorem value_reverse {is : List Nat} (h : is.length = shape.length) :
    Odometer.value shape.reverse is.reverse = flat shape is := by
  induction is generalizing shape with
  | nil =>
    rw [List.length_eq_zero_iff.mp h.symm]
    simp [Odometer.value, flat]
  | cons i is ih =>
    cases shape with
    | nil => cases h
    | cons n shape =>
      have hLength : is.length = shape.length := Nat.succ.inj h
      rw [List.reverse_cons, List.reverse_cons, value_append
        (by rw [List.length_reverse, List.length_reverse, hLength]),
        ih hLength, List.prod_reverse, flat, Nat.mul_comm, Nat.add_comm]

theorem flat_append {is : List Nat} (h : is.length = shape.length) (m j : Nat) :
    flat (shape ++ [m]) (is ++ [j]) = flat shape is * m + j := by
  induction shape generalizing is with
  | nil =>
    rw [List.length_eq_zero_iff.mp h]
    simp [flat]
  | cons n shape ih =>
    cases is with
    | nil => cases h
    | cons i is =>
      rw [List.cons_append, List.cons_append, flat, flat, ih (Nat.succ.inj h), List.prod_append, List.prod_singleton]
      ring

theorem flat_lt {is : List Nat} (h : List.Forall₂ (· < ·) is shape) : flat shape is < shape.prod := by
  rw [← value_reverse h.length_eq, ← List.prod_reverse]
  exact Odometer.value_lt (List.rel_reverse h)

theorem indices_flat {is : List Nat} (h : List.Forall₂ (· < ·) is shape) : indices shape (flat shape is) = is := by
  rw [indices, ← value_reverse h.length_eq, Odometer.digits_value (List.rel_reverse h), List.reverse_reverse]

theorem indices_zero (shape : List Nat) : indices shape 0 = List.replicate shape.length 0 := by
  rw [indices, Odometer.digits_zero, List.reverse_replicate, List.length_reverse]

/-- With one wheel that turns, the counter runs in row-major order. -/
theorem digits_eq_indices (hPos : ∀ n ∈ shape, 0 < n) (hOne : (shape.filter (1 < ·)).length ≤ 1)
    (hk : k < shape.prod) : Odometer.digits shape k = indices shape k := by
  induction shape generalizing k with
  | nil => rfl
  | cons n shape ih =>
    obtain ⟨hn, hRest⟩ := List.forall_mem_cons.mp hPos
    rw [List.prod_cons] at hk
    rw [Odometer.digits, indices_cons]
    by_cases hTurns : 1 < n
    · rw [List.filter_cons_of_pos (by simpa using hTurns), List.length_cons, Nat.succ_le_succ_iff, Nat.le_zero,
        List.length_eq_zero_iff, List.filter_eq_nil_iff] at hOne
      have hOnes : ∀ m ∈ shape, m = 1 := fun m hm => by
        have hm' := hOne m hm
        have hPos' := hRest m hm
        simp only [decide_eq_true_eq, Nat.not_lt] at hm'
        omega
      have hProd : shape.prod = 1 := List.prod_eq_one hOnes
      rw [hProd, Nat.mul_one] at hk
      rw [hProd, Nat.div_one, Nat.div_eq_of_lt hk, Odometer.digits_zero, ← indices_mod, hProd, Nat.mod_one,
        indices_zero]
    · have hStill : n = 1 := by omega
      rw [List.filter_cons_of_neg (by simpa using hTurns)] at hOne
      rw [hStill, Nat.one_mul] at hk
      rw [hStill, Nat.mod_one, Nat.mod_one, Nat.div_one, ih hRest hOne hk]

/-- With two wheels that turn, it leaves the order at its first step. -/
theorem one_of_digits (hPos : ∀ n ∈ shape, 0 < n) (h : Odometer.digits shape 1 = indices shape 1) :
    (shape.filter (1 < ·)).length ≤ 1 := by
  induction shape with
  | nil => exact Nat.zero_le 1
  | cons n shape ih =>
    obtain ⟨hn, hRest⟩ := List.forall_mem_cons.mp hPos
    rw [Odometer.digits, indices_cons, List.cons.injEq] at h
    by_cases hTurns : 1 < n
    · have hDiv : 1 / shape.prod ≠ 0 := fun hZero => by
        rw [hZero, Nat.zero_mod, Nat.mod_eq_of_lt hTurns] at h
        exact absurd h.1 Nat.one_ne_zero
      have hProd : shape.prod ≤ 1 := Nat.le_of_not_lt fun hMany => hDiv (Nat.div_eq_of_lt hMany)
      have hOnes : shape.filter (1 < ·) = [] := List.filter_eq_nil_iff.mpr fun m hm => by
        have hDvd : m ≤ shape.prod := Nat.le_of_dvd (prod_pos hRest) (List.dvd_prod hm)
        simpa using hDvd.trans hProd
      rw [List.filter_cons_of_pos (by simpa using hTurns), hOnes]
      exact Nat.le_refl 1
    · have hStill : n = 1 := by omega
      rw [List.filter_cons_of_neg (by simpa using hTurns)]
      refine ih hRest ?_
      rw [hStill, Nat.div_one] at h
      exact h.2

theorem range_mul (n m : Nat) : List.range (n * m) = (List.range n).flatMap fun i => (List.range m).map
    (i * m + ·) := by
  induction n with
  | zero => rw [Nat.zero_mul, List.range_zero, List.flatMap_nil]
  | succ n ih => rw [Nat.succ_mul, List.range_add, ih, List.range_succ, List.flatMap_append, List.flatMap_singleton]

theorem indices_row {n i : Nat} (hi : i < n) (hk : k < shape.prod) :
    indices (n :: shape) (i * shape.prod + k) = i :: indices shape k := by
  have hDiv : (i * shape.prod + k) / shape.prod = i := by
    rw [Nat.mul_comm, Nat.mul_add_div (Nat.zero_lt_of_lt hk), Nat.div_eq_of_lt hk, Nat.add_zero]
  have hMod : (i * shape.prod + k) % shape.prod = k := by rw [Nat.mul_comm, Nat.mul_add_mod, Nat.mod_eq_of_lt hk]
  rw [indices_cons, ← indices_mod, hDiv, hMod, Nat.mod_eq_of_lt hi]

/-- In row-major order the places are the numbers from zero on. -/
theorem tuples_range (shape : List Nat) :
    tuples (shape.map List.range) = (List.range shape.prod).map (indices shape) := by
  induction shape with
  | nil => rfl
  | cons n shape ih =>
    rw [List.map_cons, tuples, ih, List.prod_cons, range_mul, List.map_flatMap]
    refine List.flatMap_congr fun i hi => ?_
    rw [List.map_map, List.map_map]
    refine List.map_congr_left fun k hk => ?_
    exact (indices_row (List.mem_range.mp hi) (List.mem_range.mp hk)).symm

end Libdap.Core
