import Mathlib.Order.Lattice
import Mathlib.Order.Nat
import Mathlib.Tactic.ByContra
import Libdap.Core.Scan

/-! # Indices around a ring

A range of a ring may go past the last index and on from the first one. A range that is widened at its ends goes all the
way around, and further, when it becomes longer than the ring. Values that rise along a ring from some origin on have
their ranges at ranges of indices.
-/

namespace Libdap.Core
set_option autoImplicit false

/-- `t` steps from the origin on. -/
def around (n o t : Nat) : Nat := (o + t) % n

/-- From one place on to another, around the ring if that is before the first. -/
def InRing {κ : Type} [LE κ] [DecidableLE κ] (first last k : κ) : Prop :=
  if first ≤ last then first ≤ k ∧ k ≤ last else first ≤ k ∨ k ≤ last

instance {κ : Type} [LE κ] [DecidableLE κ] (first last k : κ) : Decidable (InRing first last k) :=
  inferInstanceAs (Decidable (if first ≤ last then first ≤ k ∧ k ≤ last else first ≤ k ∨ k ≤ last))

theorem inRing_le {κ : Type} [LE κ] [DecidableLE κ] {first last k : κ} (h : first ≤ last) :
    InRing first last k ↔ first ≤ k ∧ k ≤ last := by
  rw [InRing, if_pos h]

theorem inRing_not_le {κ : Type} [LE κ] [DecidableLE κ] {first last k : κ} (h : ¬ first ≤ last) :
    InRing first last k ↔ first ≤ k ∨ k ≤ last := by
  rw [InRing, if_neg h]

variable {n o t k first last i j left right : Nat}

theorem inRing_lt (h : last < first) : InRing first last k ↔ first ≤ k ∨ k ≤ last := inRing_not_le (Nat.not_le.mpr h)

theorem around_eq (ho : o < n) (ht : t < n) :
    around n o t = o + t ∧ o + t < n ∨ around n o t + n = o + t ∧ n ≤ o + t := by
  rw [around]
  by_cases h : o + t < n
  · rw [Nat.mod_eq_of_lt h]
    exact .inl ⟨rfl, h⟩
  · rw [Nat.mod_eq_sub_mod (by omega), Nat.mod_eq_of_lt (by omega)]
    exact .inr ⟨by omega, by omega⟩

theorem around_lt (ho : o < n) : around n o t < n := Nat.mod_lt _ (by omega)

theorem exists_around (ho : o < n) (hk : k < n) : ∃ t, t < n ∧ around n o t = k := by
  by_cases h : o ≤ k
  · refine ⟨k - o, by omega, ?_⟩
    rw [around, Nat.mod_eq_of_lt (by omega)]
    omega
  · refine ⟨k + n - o, by omega, ?_⟩
    rw [around, Nat.mod_eq_sub_mod (by omega), Nat.mod_eq_of_lt (by omega)]
    omega

theorem around_injective (ho : o < n) {s : Nat} (hs : s < n) (ht : t < n) (h : around n o s = around n o t) :
    s = t := by
  rcases around_eq ho hs with ⟨hs', -⟩ | ⟨hs', -⟩ <;> rcases around_eq ho ht with ⟨ht', -⟩ | ⟨ht', -⟩ <;> omega

/-- A range is the same from every origin. -/
theorem inRing_around (ho : o < n) (hFirst : first < n) (hLast : last < n) (ht : t < n) :
    InRing (around n o first) (around n o last) (around n o t) ↔ InRing first last t := by
  have hi := around_eq ho hFirst
  have hj := around_eq ho hLast
  have hk := around_eq ho ht
  rw [InRing, InRing]
  rcases hi with hi | hi <;> rcases hj with hj | hj <;> split <;> split <;> omega

theorem around_zero (ho : o < n) : around n o 0 = o := Nat.mod_eq_of_lt ho

theorem around_succ : (around n o t + 1) % n = around n o (t + 1) := by
  rw [around, around, Nat.mod_add_mod, Nat.add_assoc]

theorem around_pred (ho : o < n) (ht : t + 1 < n) :
    (if around n o (t + 1) = 0 then n - 1 else around n o (t + 1) - 1) = around n o t := by
  rcases around_eq ho ht with hNext | hNext <;> rcases around_eq ho (by omega : t < n) with hHere | hHere <;>
    split <;> omega

theorem around_pred_zero (ho : o < n) :
    (if around n o 0 = 0 then n - 1 else around n o 0 - 1) = around n o (n - 1) := by
  rw [around_zero ho]
  rcases around_eq ho (by omega : n - 1 < n) with hEnd | hEnd <;> split <;> omega

/-! ## Loops around the ring -/

section
variable {ε : Type} {p : Nat → Except ε Bool} {q : Nat → Bool}

theorem scanAround_forward (fault : ε) (ho : o < n) (h : ∀ k, k < n → p k = .ok (q k)) :
    (∃ t, t < n ∧ scanAround p (fun i => (i + 1) % n) o fault n o = .ok (around n o t) ∧
        (∀ s, s < t → q (around n o s) = true) ∧ q (around n o t) = false) ∨
      scanAround p (fun i => (i + 1) % n) o fault n o = .error fault ∧ ∀ k, k < n → q k = true := by
  have hApart (t : Nat) (ht : 0 < t) (hLt : t < n) : around n o t ≠ around n o 0 := by
    intro hSame
    have hZero := around_injective ho hLt (by omega) hSame
    omega
  have hScan := scanAround_ends (fun i => (i + 1) % n) (around n o) fault (fun t _ => around_succ)
    (fun t ht => by rw [around_succ, ht, around, around, Nat.add_mod_right, Nat.add_zero]) hApart
    (fun t _ => h _ (around_lt ho))
  rw [around_zero ho] at hScan
  rcases hScan with hFound | ⟨hRun, hAll⟩
  · exact .inl hFound
  · refine .inr ⟨hRun, fun k hk => ?_⟩
    obtain ⟨t, ht, rfl⟩ := exists_around ho hk
    exact hAll t ht

theorem scanAround_back (fault : ε) (ho : o < n) (h : ∀ k, k < n → p k = .ok (q k)) :
    (∃ t, t < n ∧ scanAround p (fun i => if i = 0 then n - 1 else i - 1) ((o + n - 1) % n) fault n ((o + n - 1) % n) =
        .ok (around n o t) ∧ (∀ s, t < s → s < n → q (around n o s) = true) ∧ q (around n o t) = false) ∨
      scanAround p (fun i => if i = 0 then n - 1 else i - 1) ((o + n - 1) % n) fault n ((o + n - 1) % n) =
        .error fault ∧ ∀ k, k < n → q k = true := by
  have hStart : around n o (n - 1 - 0) = (o + n - 1) % n := by
    rw [around, Nat.sub_zero, Nat.add_sub_assoc (by omega)]
  have hApart (t : Nat) (ht : 0 < t) (hLt : t < n) : around n o (n - 1 - t) ≠ around n o (n - 1 - 0) := by
    intro hSame
    have hEnd := around_injective ho (by omega) (by omega) hSame
    omega
  have hNext (t : Nat) (ht : t + 1 < n) : (if around n o (n - 1 - t) = 0 then n - 1 else around n o (n - 1 - t) - 1) =
      around n o (n - 1 - (t + 1)) := by
    rw [show n - 1 - t = n - 1 - (t + 1) + 1 by omega, around_pred ho (by omega)]
  have hTurn (t : Nat) (ht : t + 1 = n) : (if around n o (n - 1 - t) = 0 then n - 1 else around n o (n - 1 - t) - 1) =
      around n o (n - 1 - 0) := by
    rw [show n - 1 - t = 0 by omega, around_pred_zero ho, Nat.sub_zero]
  have hScan := scanAround_ends (fun i => if i = 0 then n - 1 else i - 1)
    (fun t => around n o (n - 1 - t)) fault hNext hTurn hApart
    (fun t _ => h _ (around_lt ho))
  have hFrom {k : Nat} (hk : k < n) : n - 1 - (n - 1 - k) = k := by omega
  rw [hStart] at hScan
  rcases hScan with ⟨t, ht, hRun, hAll, hStop⟩ | ⟨hRun, hAll⟩
  · refine .inl ⟨n - 1 - t, by omega, hRun, fun s hs hLt => ?_, hStop⟩
    have hBack := hAll (n - 1 - s) (by omega)
    rw [hFrom hLt] at hBack
    exact hBack
  · refine .inr ⟨hRun, fun k hk => ?_⟩
    obtain ⟨t, ht, rfl⟩ := exists_around ho hk
    have hBack := hAll (n - 1 - t) (by omega)
    rw [hFrom ht] at hBack
    exact hBack

end

/-! ## Values that rise around the ring -/

section
variable {κ : Type} [LinearOrder κ] {w : Nat → κ}

def RisesFrom (w : Nat → κ) (n o : Nat) : Prop := o < n ∧ ∀ s t, s < t → t < n → w (around n o s) < w (around n o t)

theorem RisesFrom.lt_iff (h : RisesFrom w n o) {s : Nat} (hs : s < n) (ht : t < n) :
    w (around n o s) < w (around n o t) ↔ s < t := by
  constructor
  · intro hLt
    by_contra hNot
    rcases Nat.eq_or_lt_of_le (Nat.not_lt.mp hNot) with rfl | hBack
    · exact lt_irrefl _ hLt
    · exact lt_asymm hLt (h.2 t s hBack hs)
  · intro hLt
    exact h.2 s t hLt ht

theorem RisesFrom.le_iff (h : RisesFrom w n o) {s : Nat} (hs : s < n) (ht : t < n) :
    w (around n o s) ≤ w (around n o t) ↔ s ≤ t := by
  rw [← not_lt, h.lt_iff ht hs, Nat.not_lt]

theorem RisesFrom.injective (h : RisesFrom w n o) (hi : i < n) (hj : j < n) (hSame : w i = w j) : i = j := by
  obtain ⟨s, hs, rfl⟩ := exists_around h.1 hi
  obtain ⟨t, ht, rfl⟩ := exists_around h.1 hj
  have hLe := (h.le_iff hs ht).mp (le_of_eq hSame)
  have hGe := (h.le_iff ht hs).mp (le_of_eq hSame.symm)
  rw [Nat.le_antisymm hLe hGe]

/-- The origin is where the least value is. -/
theorem RisesFrom.origin (h : RisesFrom w n o) (hi : i < n) (hLeast : ∀ k, k < n → w i ≤ w k) : i = o := by
  obtain ⟨t, ht, rfl⟩ := exists_around h.1 hi
  have hFirst := (h.le_iff ht (Nat.zero_lt_of_lt hi)).mp (hLeast _ (around_lt h.1))
  rw [Nat.le_zero.mp hFirst, around_zero h.1]

/-- Values that rise from turn to turn, with turns that count down. -/
theorem exists_risesFrom {c : Nat → Int} (hPos : 0 < n)
    (h : ∀ k l, k < l → l < n → c l = c k ∧ w k < w l ∨ c l + 1 = c k ∧ w l < w k) : ∃ o, RisesFrom w n o := by
  by_cases hTurn : ∃ k, k < n ∧ c k ≠ c 0
  · obtain ⟨ho, hNew⟩ := Nat.find_spec hTurn
    have hBefore {k : Nat} (hk : k < Nat.find hTurn) : c k = c 0 := by
      by_contra hNot
      exact Nat.find_min hTurn hk ⟨by omega, hNot⟩
    generalize Nat.find hTurn = o at *
    have hFrom {k : Nat} (hk : o ≤ k) (hkn : k < n) : c k + 1 = c 0 := by
      have hZero : 0 < o := by
        by_contra hNot
        exact hNew (by rw [Nat.eq_zero_of_not_pos hNot])
      rcases h 0 k (by omega) hkn with ⟨hSame, -⟩ | ⟨hLess, -⟩
      · rcases h 0 o hZero ho with ⟨hSame', -⟩ | ⟨hLess', -⟩
        · exact absurd hSame' hNew
        · rcases Nat.eq_or_lt_of_le hk with rfl | hk
          · exact hLess'
          · rcases h o k hk hkn with ⟨hSame'', -⟩ | ⟨hLess'', -⟩ <;> omega
      · exact hLess
    refine ⟨o, ho, fun s t hs ht => ?_⟩
    rcases around_eq ho (hs.trans ht) with ⟨hHere, hIn⟩ | ⟨hHere, hIn⟩
    · rcases around_eq ho ht with ⟨hThere, hIn'⟩ | ⟨hThere, hIn'⟩
      · have hs' := hFrom (by omega : o ≤ around n o s) (by omega)
        have ht' := hFrom (by omega : o ≤ around n o t) (by omega)
        rcases h (around n o s) (around n o t) (by omega) (by omega) with ⟨-, hRise⟩ | ⟨hLess, -⟩
        · exact hRise
        · omega
      · have hs' := hFrom (by omega : o ≤ around n o s) (by omega)
        have ht' := hBefore (by omega : around n o t < o)
        rcases h (around n o t) (around n o s) (by omega) (by omega) with ⟨hSame, -⟩ | ⟨-, hFall⟩
        · omega
        · exact hFall
    · rcases around_eq ho ht with ⟨hThere, hIn'⟩ | ⟨hThere, hIn'⟩
      · omega
      · have hs' := hBefore (by omega : around n o s < o)
        have ht' := hBefore (by omega : around n o t < o)
        rcases h (around n o s) (around n o t) (by omega) (by omega) with ⟨-, hRise⟩ | ⟨hLess, -⟩
        · exact hRise
        · omega
  · have hSame {k : Nat} (hk : k < n) : c k = c 0 := by
      by_contra hNot
      exact hTurn ⟨k, hk, hNot⟩
    refine ⟨0, hPos, fun s t hs ht => ?_⟩
    have hAt {k : Nat} (hk : k < n) : around n 0 k = k := by rw [around, Nat.zero_add, Nat.mod_eq_of_lt hk]
    rw [hAt ht, hAt (hs.trans ht)]
    rcases h s t hs ht with ⟨-, hRise⟩ | ⟨hLess, -⟩
    · exact hRise
    · rw [hSame ht, hSame (hs.trans ht)] at hLess
      omega

/-- From the first value that is not below one bound to the last that is not above another, where some value is in the
range of the two. -/
theorem RisesFrom.inRing (h : RisesFrom w n o) {low high : κ} {p q : Nat} (hp : p < n) (hq : q < n)
    (hBelow : ∀ s, s < p → w (around n o s) < low) (hLow : low ≤ w (around n o p))
    (hAbove : ∀ s, q < s → s < n → high < w (around n o s)) (hHigh : w (around n o q) ≤ high)
    (hSome : ∃ t, t < n ∧ InRing low high (w (around n o t))) (ht : t < n) :
    InRing low high (w (around n o t)) ↔ InRing p q t := by
  have hLowIff {s : Nat} (hs : s < n) : low ≤ w (around n o s) ↔ p ≤ s := by
    constructor
    · intro hIn
      by_contra hNot
      exact not_lt.mpr hIn (hBelow s (by omega))
    · intro hLe
      exact hLow.trans ((h.le_iff hp hs).mpr hLe)
  have hHighIff {s : Nat} (hs : s < n) : w (around n o s) ≤ high ↔ s ≤ q := by
    constructor
    · intro hIn
      by_contra hNot
      exact not_lt.mpr hIn (hAbove s (by omega) hs)
    · intro hLe
      exact ((h.le_iff hs hq).mpr hLe).trans hHigh
  by_cases hOrder : low ≤ high
  · obtain ⟨s, hs, hIn⟩ := hSome
    rw [inRing_le hOrder, hLowIff hs, hHighIff hs] at hIn
    rw [inRing_le hOrder, inRing_le (hIn.1.trans hIn.2), hLowIff ht, hHighIff ht]
  · have hSeam : ¬ p ≤ q := by
      intro hNot
      exact hOrder (hLow.trans (((h.le_iff hp hq).mpr hNot).trans hHigh))
    rw [inRing_not_le hOrder, inRing_not_le hSeam, hLowIff ht, hHighIff ht]

end

/-! ## Widened ranges -/

theorem inRing_all (hFirst : first < n) (hLast : last < n) :
    (∀ t, t < n → InRing first last t) ↔ first = last + 1 ∨ first = 0 ∧ last + 1 = n := by
  constructor
  · intro h
    rcases Nat.lt_or_ge last first with hSeam | hOrder
    · have hNext := (inRing_lt hSeam).mp (h (last + 1) (by omega))
      omega
    · have hZero := (inRing_le hOrder).mp (h 0 (by omega))
      have hEnd := (inRing_le hOrder).mp (h (n - 1) (by omega))
      omega
  · rintro (h | ⟨hZero, hEnd⟩) t ht
    · rw [inRing_lt (by omega)]
      omega
    · rw [inRing_le (by omega)]
      omega

/-- One index is outside. -/
def AllButOne (first last n : Nat) : Prop :=
  ∃ s, s < n ∧ ¬ InRing first last s ∧ ∀ t, t < n → ¬ InRing first last t → t = s

theorem inRing_but_one (hFirst : first < n) (hLast : last < n) :
    AllButOne first last n ↔ first = last + 2 ∨ first = 0 ∧ last + 2 = n ∨ first = 1 ∧ last + 1 = n := by
  constructor
  · rintro ⟨s, hs, hOut, hOnly⟩
    rcases Nat.lt_or_ge last first with hSeam | hOrder
    · rw [inRing_lt hSeam] at hOut
      have hNext := hOnly (last + 1) (by omega) (by rw [inRing_lt hSeam]; omega)
      have hBefore := hOnly (first - 1) (by omega) (by rw [inRing_lt hSeam]; omega)
      omega
    · rw [inRing_le hOrder] at hOut
      rcases Nat.lt_or_ge s first with hLow | hHigh
      · have hZero := hOnly 0 (by omega) (by rw [inRing_le hOrder]; omega)
        have hBefore := hOnly (first - 1) (by omega) (by rw [inRing_le hOrder]; omega)
        have hEnd (h : last < n - 1) := hOnly (n - 1) (by omega) (by rw [inRing_le hOrder]; omega)
        omega
      · have hNext := hOnly (last + 1) (by omega) (by rw [inRing_le hOrder]; omega)
        have hEnd := hOnly (n - 1) (by omega) (by rw [inRing_le hOrder]; omega)
        have hZero (h : 0 < first) := hOnly 0 (by omega) (by rw [inRing_le hOrder]; omega)
        omega
  · rintro (h | ⟨h, hEnd⟩ | ⟨h, hEnd⟩)
    · refine ⟨last + 1, by omega, by rw [inRing_lt (by omega)]; omega, fun t ht hOut => ?_⟩
      rw [inRing_lt (by omega)] at hOut
      omega
    · refine ⟨last + 1, by omega, by rw [inRing_le (by omega)]; omega, fun t ht hOut => ?_⟩
      rw [inRing_le (by omega)] at hOut
      omega
    · refine ⟨0, by omega, by rw [inRing_le (by omega)]; omega, fun t ht hOut => ?_⟩
      rw [inRing_le (by omega)] at hOut
      omega

/-- A range that is widened by an index at an end still holds what it held before, unless it is then longer than the
ring. -/
theorem inRing_widened (hi : i < n) (hj : j < n) (hLeft : left = i ∨ left + 1 = i)
    (hRight : right = j ∨ right = j + 1 ∧ right < n) :
    (∀ k, k < n → InRing i j k → InRing left right k) ↔
      ((∀ k, k < n → InRing i j k) → left = i ∧ right = j ∨ n = 2 ∧ left ≠ i ∧ right ≠ j) ∧
        (AllButOne i j n → ¬ (left ≠ i ∧ right ≠ j)) := by
  rw [inRing_all hi hj, inRing_but_one hi hj]
  constructor
  · intro h
    constructor
    · intro hAll
      have hEvery (k : Nat) (hk : k < n) : InRing left right k := h k hk ((inRing_all hi hj).mpr hAll k hk)
      have hWidened := (inRing_all (by omega) (by omega)).mp hEvery
      omega
    · rintro hOne ⟨hLeftNe, hRightNe⟩
      rcases hOne with hOne | ⟨hZero, hEnd⟩ | ⟨hFirst, hEnd⟩
      · have hIn := h i hi ((inRing_lt (by omega)).mpr (.inl (Nat.le_refl i)))
        rw [inRing_le (by omega)] at hIn
        omega
      · omega
      · omega
  · rintro ⟨hAll, hOne⟩ k hk hIn
    rcases Nat.lt_or_ge j i with hSeam | hOrder
    · rw [inRing_lt hSeam] at hIn
      rcases Nat.lt_or_ge right left with hStill | hMet
      · rw [inRing_lt hStill]
        omega
      · rw [inRing_le hMet]
        omega
    · rw [inRing_le hOrder] at hIn
      rw [inRing_le (by omega)]
      omega

end Libdap.Core
