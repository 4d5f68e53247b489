import Libdap.Core.Fault
import Mathlib.Tactic.ByContra

/-! # Scans of an array

Loops that move an index as long as a test of the element there holds. The test may fault, as where the element is
outside the array.
-/

namespace Libdap.Core
set_option autoImplicit false

variable {ε α : Type} {p : Nat → Except ε Bool} {q : Nat → Bool} {i n : Nat}

/-- `xs[i]` -/
def element (xs : List α) (i : Nat) : Except Fault α :=
  match xs[i]? with
  | some x => .ok x
  | none => .error .outOfBounds

theorem element_ok {xs : List α} {i : Nat} (h : i < xs.length) : element xs i = .ok xs[i] := by
  rw [element, List.getElem?_eq_getElem h]

theorem element_head {xs : List α} {x : α} (h : xs.head? = some x) : element xs 0 = .ok x := by
  rw [element, ← List.head?_eq_getElem?, h]

theorem element_last {xs : List α} {x : α} (h : xs.getLast? = some x) : element xs (xs.length - 1) = .ok x := by
  rw [element, ← List.getLast?_eq_getElem?, h]

/-- The elements as a function of the index. -/
theorem elements (xs : List α) (d : α) : ∃ f : Nat → α, (∀ k, k < xs.length → element xs k = .ok (f k)) ∧
    ∀ k x, xs[k]? = some x → k < xs.length ∧ x = f k := by
  refine ⟨fun k => if hk : k < xs.length then xs[k] else d, fun k hk => ?_, fun k x hx => ?_⟩
  · dsimp only
    rw [element_ok hk, dif_pos hk]
  · obtain ⟨hk, rfl⟩ := List.getElem?_eq_some_iff.mp hx
    exact ⟨hk, (dif_pos hk).symm⟩

section
variable {xs : List α} {f : Nat → α} {P : α → Prop}

theorem forall_elements (h : ∀ k, k < xs.length → element xs k = .ok (f k)) :
    (∀ x ∈ xs, P x) ↔ ∀ k, k < xs.length → P (f k) := by
  rw [List.forall_mem_iff_forall_getElem]
  refine forall_congr' fun k => forall_congr' fun hk => ?_
  have hAt := h k hk
  rw [element_ok hk] at hAt
  rw [Except.ok.inj hAt]

theorem exists_element (h : ∀ k, k < xs.length → element xs k = .ok (f k)) :
    (∃ x ∈ xs, P x) ↔ ∃ k, k < xs.length ∧ P (f k) := by
  constructor
  · rintro ⟨x, hx, hP⟩
    obtain ⟨k, hk, rfl⟩ := List.getElem_of_mem hx
    have hAt := h k hk
    rw [element_ok hk] at hAt
    exact ⟨k, hk, by rw [← Except.ok.inj hAt]; exact hP⟩
  · rintro ⟨k, hk, hP⟩
    have hAt := h k hk
    rw [element_ok hk] at hAt
    exact ⟨xs[k], List.getElem_mem hk, by rw [Except.ok.inj hAt]; exact hP⟩

end

/-- `while (p(i)) ++i;` in at most `n` steps -/
def scanUp (p : Nat → Except ε Bool) : Nat → Nat → Except ε Nat
  | 0, i => .ok i
  | n + 1, i => do
    if ← p i then scanUp p n (i + 1) else pure i

/-- `while (i > 0 && p(i)) --i;` -/
def scanDown (p : Nat → Except ε Bool) : Nat → Except ε Nat
  | 0 => .ok 0
  | i + 1 => do
    if ← p (i + 1) then scanDown p i else pure (i + 1)

/-- It stops at the first index at which the test does not hold. -/
theorem scanUp_ok (h : ∀ k, i ≤ k → k < i + n → p k = .ok (q k)) :
    ∃ j, scanUp p n i = .ok j ∧ i ≤ j ∧ j ≤ i + n ∧ (∀ k, i ≤ k → k < j → q k = true) ∧
      (j < i + n → q j = false) := by
  induction n generalizing i with
  | zero => exact ⟨i, rfl, Nat.le_refl i, Nat.le_refl i, fun k hi hk => by omega, fun h => by omega⟩
  | succ n ih =>
    rw [scanUp, h i (Nat.le_refl i) (by omega), ok_bind]
    cases hTest : q i with
    | false => exact ⟨i, rfl, Nat.le_refl i, by omega, fun k hi hk => by omega, fun _ => hTest⟩
    | true =>
      obtain ⟨j, hRun, hLow, hHigh, hAll, hStop⟩ := ih (i := i + 1) fun k hi hk => h k (by omega) (by omega)
      rw [if_pos rfl]
      refine ⟨j, hRun, by omega, by omega, fun k hi hk => ?_, fun hj => hStop (by omega)⟩
      rcases Nat.eq_or_lt_of_le hi with rfl | hi
      · exact hTest
      · exact hAll k hi hk

theorem scanDown_ok (h : ∀ k, 0 < k → k ≤ i → p k = .ok (q k)) :
    ∃ j, scanDown p i = .ok j ∧ j ≤ i ∧ (∀ k, j < k → k ≤ i → q k = true) ∧ (0 < j → q j = false) := by
  induction i with
  | zero => exact ⟨0, rfl, Nat.le_refl 0, fun k hj hk => by omega, fun h => by omega⟩
  | succ i ih =>
    rw [scanDown, h (i + 1) (Nat.succ_pos i) (Nat.le_refl _), ok_bind]
    cases hTest : q (i + 1) with
    | false => exact ⟨i + 1, rfl, Nat.le_refl _, fun k hj hk => by omega, fun _ => hTest⟩
    | true =>
      obtain ⟨j, hRun, hHigh, hAll, hStop⟩ := ih fun k hk hi => h k hk (by omega)
      rw [if_pos rfl]
      refine ⟨j, hRun, by omega, fun k hj hk => ?_, hStop⟩
      rcases Nat.eq_or_lt_of_le hk with rfl | hk
      · exact hTest
      · exact hAll k hj (by omega)

/-- A loop around a ring of `len` indices, which gives up when it is at the start again. -/
def scanAround (p : Nat → Except ε Bool) (next : Nat → Nat) (start : Nat) (fault : ε) : Nat → Nat → Except ε Nat
  | 0, _ => .error fault
  | len + 1, i => do
    if ← p i then
      if next i = start then .error fault else scanAround p next start fault len (next i)
    else pure i

/-- With the indices in the order of the loop; it stops at the first at which the test does not hold. -/
theorem scanAround_ends (next f : Nat → Nat) (fault : ε) {len : Nat} (hNext : ∀ t, t + 1 < len → next (f t) = f (t + 1))
    (hAround : ∀ t, t + 1 = len → next (f t) = f 0) (hApart : ∀ t, 0 < t → t < len → f t ≠ f 0)
    (h : ∀ t, t < len → p (f t) = .ok (q (f t))) :
    (∃ t, t < len ∧ scanAround p next (f 0) fault len (f 0) = .ok (f t) ∧ (∀ s, s < t → q (f s) = true) ∧
        q (f t) = false) ∨
      scanAround p next (f 0) fault len (f 0) = .error fault ∧ ∀ t, t < len → q (f t) = true := by
  -- after `t` steps the loop has `n` left
  have hFrom (n t : Nat) (hLen : t + n = len) :
      (∃ u, t ≤ u ∧ u < len ∧ scanAround p next (f 0) fault n (f t) = .ok (f u) ∧
          (∀ s, t ≤ s → s < u → q (f s) = true) ∧ q (f u) = false) ∨
        scanAround p next (f 0) fault n (f t) = .error fault ∧ ∀ s, t ≤ s → s < len → q (f s) = true := by
    induction n generalizing t with
    | zero => exact .inr ⟨rfl, fun s hs hLt => by omega⟩
    | succ n ih =>
      rw [scanAround, h t (by omega), ok_bind]
      cases hTest : q (f t) with
      | false => exact .inl ⟨t, Nat.le_refl t, by omega, rfl, fun s hs hLt => by omega, hTest⟩
      | true =>
        rw [if_pos rfl]
        have hFirst {s : Nat} (hs : t ≤ s) (hRest : t + 1 ≤ s → q (f s) = true) : q (f s) = true := by
          rcases Nat.eq_or_lt_of_le hs with rfl | hs
          · exact hTest
          · exact hRest hs
        by_cases hLast : t + 1 = len
        · rw [if_pos (hAround t hLast)]
          exact .inr ⟨rfl, fun s hs hLt => hFirst hs fun hNot => by omega⟩
        · rw [hNext t (by omega), if_neg (hApart (t + 1) (by omega) (by omega))]
          rcases ih (t + 1) (by omega) with ⟨u, hLow, hHigh, hRun, hAll, hStop⟩ | ⟨hRun, hAll⟩
          · exact .inl ⟨u, by omega, hHigh, hRun, fun s hs hLt => hFirst hs fun hs => hAll s hs hLt, hStop⟩
          · exact .inr ⟨hRun, fun s hs hLt => hFirst hs fun hs => hAll s hs hLt⟩
  rcases hFrom len 0 (Nat.zero_add len) with ⟨u, -, hHigh, hRun, hAll, hStop⟩ | ⟨hRun, hAll⟩
  · exact .inl ⟨u, hHigh, hRun, fun s => hAll s (Nat.zero_le s), hStop⟩
  · exact .inr ⟨hRun, fun s => hAll s (Nat.zero_le s)⟩

end Libdap.Core

/-! ## The ends of what a test holds of

Two scans look for the first index and for the last index at which a test holds. A second pair of scans with another test
starts from what the first pair found, and need not find the ends of what both tests hold of.
-/

namespace Libdap.Core
set_option autoImplicit false

variable {ε : Type} {test : Nat → Except ε Bool} {f g : Nat → Bool} {start behind first last first' last' n : Nat}

/-- Forward from `start`, and backward from the index before `behind` down to index 0. -/
def scanEnds (test : Nat → Except ε Bool) (start behind : Nat) : Except ε (Nat × Nat) := do
  let first ← scanUp (fun i => (! ·) <$> test i) (behind - start) start
  let last ← scanDown (fun i => (! ·) <$> test (i - 1)) behind
  pure (first, last)

structure Ends (f : Nat → Bool) (start behind first last : Nat) : Prop where
  low : start ≤ first
  high : first ≤ start + (behind - start)
  before : ∀ k, start ≤ k → k < first → f k = false
  atFirst : first < start + (behind - start) → f first = true
  le : last ≤ behind
  after : ∀ k, last ≤ k → k < behind → f k = false
  atLast : 0 < last → f (last - 1) = true

theorem scanEnds_ok (start : Nat) (h : ∀ k, k < behind → test k = .ok (f k)) :
    ∃ first last, scanEnds test start behind = .ok (first, last) ∧ Ends f start behind first last := by
  have hUp : ∀ k, start ≤ k → k < start + (behind - start) → (! ·) <$> test k = .ok (!f k) := by
    intro k hLow hHigh
    rw [h k (by omega)]
    rfl
  have hDown : ∀ k, 0 < k → k ≤ behind → (! ·) <$> test (k - 1) = .ok (!f (k - 1)) := by
    intro k hPos hLe
    rw [h (k - 1) (by omega)]
    rfl
  obtain ⟨first, hFirst, hLow, hHigh, hBefore, hStop⟩ := scanUp_ok (q := fun k => !f k) hUp
  obtain ⟨last, hLast, hLe, hAfter, hFound⟩ := scanDown_ok (q := fun k => !f (k - 1)) hDown
  refine ⟨first, last, ?_, hLow, hHigh, ?_, ?_, hLe, ?_, ?_⟩
  · rw [scanEnds, hFirst, ok_bind, hLast]
    rfl
  · intro k hk hs
    simpa using hBefore k hk hs
  · intro hs
    simpa using hStop hs
  · intro k hb hk
    simpa using hAfter (k + 1) (by omega) (by omega)
  · intro hb
    simpa using hFound hb

/-- The smallest range with all members; `last` is behind it. -/
structure Hull (S : Nat → Prop) (first last : Nat) : Prop where
  found : ∀ i, S i → S first ∧ S (last - 1) ∧ first < last ∧ ∀ k, S k → first ≤ k ∧ k < last
  none : (∀ k, ¬ S k) → last ≤ first

def Between (S : Nat → Prop) (j : Nat) : Prop := (∃ i, i ≤ j ∧ S i) ∧ ∃ k, j ≤ k ∧ S k

theorem Ends.hull (h : Ends f 0 n first last) : Hull (fun k => k < n ∧ f k = true) first last := by
  have hBounds (k : Nat) (hk : k < n ∧ f k = true) : first ≤ k ∧ k < last := by
    constructor
    · by_contra hNot
      rw [h.before k (Nat.zero_le k) (by omega)] at hk
      exact Bool.false_ne_true hk.2
    · by_contra hNot
      rw [h.after k (by omega) hk.1] at hk
      exact Bool.false_ne_true hk.2
  constructor
  · intro i hi
    obtain ⟨hFirst, hLast⟩ := hBounds i hi
    have hLe := h.le
    exact ⟨⟨by omega, h.atFirst (by omega)⟩, ⟨by omega, h.atLast (by omega)⟩, by omega, hBounds⟩
  · intro hNone
    by_contra hNot
    have hLe := h.le
    exact hNone first ⟨by omega, h.atFirst (by omega)⟩

/-- The second pair of scans finds the ends of what holds in the hull of the first test. -/
theorem Ends.within (hf : Ends f 0 n first last) (hg : Ends g first last first' last') :
    Hull (fun k => g k = true ∧ Between (fun k => k < n ∧ f k = true) k) first' last' := by
  have hHull := hf.hull
  have hLe := hf.le
  have hLe' := hg.le
  have hHigh := hg.high
  have hLow := hg.low
  have hBounds (k : Nat) (hk : g k = true ∧ Between (fun k => k < n ∧ f k = true) k) : first' ≤ k ∧ k < last' := by
    obtain ⟨hTest, ⟨i, hi, hi'⟩, j, hj, hj'⟩ := hk
    obtain ⟨-, -, -, hAll⟩ := hHull.found i hi'
    have hFirst := (hAll i hi').1
    have hLast := (hAll j hj').2
    constructor
    · by_contra hNot
      rw [hg.before k (by omega) (by omega)] at hTest
      exact Bool.false_ne_true hTest
    · by_contra hNot
      rw [hg.after k (by omega) (by omega)] at hTest
      exact Bool.false_ne_true hTest
  have hInside (k : Nat) (hLow : first ≤ k) (hHigh : k < last) : Between (fun k => k < n ∧ f k = true) k := by
    have hFirst := hf.atFirst (by omega)
    have hLast := hf.atLast (by omega)
    exact ⟨⟨first, hLow, by omega, hFirst⟩, last - 1, by omega, by omega, hLast⟩
  constructor
  · intro i hi
    obtain ⟨hFirst, hLast⟩ := hBounds i hi
    refine ⟨⟨hg.atFirst (by omega), hInside _ (by omega) (by omega)⟩,
      ⟨hg.atLast (by omega), hInside _ (by omega) (by omega)⟩, by omega, hBounds⟩
  · intro hNone
    by_contra hNot
    exact hNone first' ⟨hg.atFirst (by omega), hInside _ (by omega) (by omega)⟩

/-- They are the ends of what both tests hold of if between the ends of the first test the second one holds only between
indices at which both do. -/
theorem Ends.hull_iff (hf : Ends f 0 n first last) (hg : Ends g first last first' last') :
    Hull (fun k => k < n ∧ f k = true ∧ g k = true) first' last' ↔
      ∀ j, g j = true → Between (fun k => k < n ∧ f k = true) j →
        Between (fun k => k < n ∧ f k = true ∧ g k = true) j := by
  have hWithin := hf.within hg
  have hBoth (k : Nat) (hk : k < n ∧ f k = true ∧ g k = true) :
      g k = true ∧ Between (fun k => k < n ∧ f k = true) k :=
    ⟨hk.2.2, ⟨k, Nat.le_refl k, hk.1, hk.2.1⟩, k, Nat.le_refl k, hk.1, hk.2.1⟩
  constructor
  · intro h j hj hBetween
    obtain ⟨-, -, hLess, hAll⟩ := hWithin.found j ⟨hj, hBetween⟩
    obtain ⟨hLow, hHigh⟩ := hAll j ⟨hj, hBetween⟩
    by_cases hSome : ∃ k, k < n ∧ f k = true ∧ g k = true
    · obtain ⟨k, hk⟩ := hSome
      obtain ⟨hFirst, hLast, -, -⟩ := h.found k hk
      exact ⟨⟨first', hLow, hFirst⟩, last' - 1, by omega, hLast⟩
    · have hEmpty := h.none fun k hk => hSome ⟨k, hk⟩
      omega
  · intro h
    constructor
    · intro i hi
      obtain ⟨hFirst, hLast, hLess, hAll⟩ := hWithin.found i (hBoth i hi)
      have hBounds (k : Nat) (hk : k < n ∧ f k = true ∧ g k = true) : first' ≤ k ∧ k < last' := hAll k (hBoth k hk)
      obtain ⟨⟨a, ha, ha'⟩, -⟩ := h first' hFirst.1 hFirst.2
      obtain ⟨-, b, hb, hb'⟩ := h (last' - 1) hLast.1 hLast.2
      have hA := hBounds a ha'
      have hB := hBounds b hb'
      obtain rfl : a = first' := by omega
      obtain rfl : b = last' - 1 := by omega
      exact ⟨ha', hb', hLess, hBounds⟩
    · intro hNone
      by_cases hSome : ∃ k, g k = true ∧ Between (fun k => k < n ∧ f k = true) k
      · obtain ⟨k, hk, hBetween⟩ := hSome
        obtain ⟨⟨a, -, ha⟩, -⟩ := h k hk hBetween
        exact absurd ha (hNone a)
      · exact hWithin.none fun k hk => hSome ⟨k, hk⟩

end Libdap.Core
