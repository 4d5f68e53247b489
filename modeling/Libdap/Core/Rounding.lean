import Mathlib.Data.Int.Order.Basic
import Mathlib.Data.Nat.Log
import Mathlib.Algebra.Order.Ring.Int
import Mathlib.Tactic.Linarith

/-! # Integers rounded to the nearest float

A float with a significand of `p` bits is an integer multiple of a power of two here. An integer is rounded to the
nearest one, to the even significand when two are as near.
-/

namespace Libdap.Rounding
set_option autoImplicit false

/-- Rounding to a multiple of `2 ^ k`. -/
def roundAt (k n : Nat) : Nat :=
  if 2 ^ k < 2 * (n % 2 ^ k) ∨ 2 * (n % 2 ^ k) = 2 ^ k ∧ n / 2 ^ k % 2 = 1 then (n / 2 ^ k + 1) * 2 ^ k
  else n / 2 ^ k * 2 ^ k

/-- The bits of a number behind the first `p` of them. -/
def dropped (p n : Nat) : Nat := n.log2 + 1 - p

def roundNat (p n : Nat) : Nat := roundAt (dropped p n) n

def roundInt (p : Nat) (n : Int) : Int := n.sign * roundNat p n.natAbs

/-- An integer with so many bits between its first and its last digit that is not zero. -/
def IsFloat (p : Nat) (n : Int) : Prop := ∃ (m : Int) (k : Nat), m.natAbs < 2 ^ p ∧ n = m * 2 ^ k

variable {k l n m p : Nat}

theorem roundAt_le (k n : Nat) : roundAt k n ≤ (n / 2 ^ k + 1) * 2 ^ k := by
  rw [roundAt]
  split
  · exact Nat.le_refl _
  · exact Nat.mul_le_mul_right _ (Nat.le_succ _)

theorem le_roundAt (k n : Nat) : n / 2 ^ k * 2 ^ k ≤ roundAt k n := by
  rw [roundAt]
  split
  · exact Nat.mul_le_mul_right _ (Nat.le_succ _)
  · exact Nat.le_refl _

theorem roundAt_mono (k : Nat) (h : n ≤ m) : roundAt k n ≤ roundAt k m := by
  have hDiv : n / 2 ^ k ≤ m / 2 ^ k := Nat.div_le_div_right h
  obtain hLess | hEq := Nat.lt_or_eq_of_le hDiv
  · calc
      roundAt k n ≤ (n / 2 ^ k + 1) * 2 ^ k := roundAt_le k n
      _ ≤ m / 2 ^ k * 2 ^ k := Nat.mul_le_mul_right _ hLess
      _ ≤ roundAt k m := le_roundAt k m
  · have hn := Nat.div_add_mod n (2 ^ k)
    have hm := Nat.div_add_mod m (2 ^ k)
    rw [hEq] at hn
    have hMod : n % 2 ^ k ≤ m % 2 ^ k := by omega
    rw [roundAt, roundAt, hEq]
    split
    · rename_i hUp
      rw [if_pos (by omega)]
    · split
      · exact Nat.mul_le_mul_right _ (Nat.le_succ _)
      · exact Nat.le_refl _

theorem roundAt_le_pow (hk : k ≤ l) (h : n < 2 ^ l) : roundAt k n ≤ 2 ^ l := by
  have hPow : 2 ^ l = 2 ^ (l - k) * 2 ^ k := by rw [← Nat.pow_add, Nat.sub_add_cancel hk]
  have hDiv : n / 2 ^ k < 2 ^ (l - k) := by
    rw [Nat.div_lt_iff_lt_mul (Nat.two_pow_pos k), ← hPow]
    exact h
  calc
    roundAt k n ≤ (n / 2 ^ k + 1) * 2 ^ k := roundAt_le k n
    _ ≤ 2 ^ (l - k) * 2 ^ k := Nat.mul_le_mul_right _ hDiv
    _ = 2 ^ l := hPow.symm

theorem pow_le_roundAt (hk : k ≤ l) (h : 2 ^ l ≤ n) : 2 ^ l ≤ roundAt k n := by
  have hPow : 2 ^ l = 2 ^ (l - k) * 2 ^ k := by rw [← Nat.pow_add, Nat.sub_add_cancel hk]
  have hDiv : 2 ^ (l - k) ≤ n / 2 ^ k := by
    rw [Nat.le_div_iff_mul_le (Nat.two_pow_pos k), ← hPow]
    exact h
  calc
    2 ^ l = 2 ^ (l - k) * 2 ^ k := hPow
    _ ≤ n / 2 ^ k * 2 ^ k := Nat.mul_le_mul_right _ hDiv
    _ ≤ roundAt k n := le_roundAt k n

theorem roundAt_of_dvd (h : 2 ^ k ∣ n) : roundAt k n = n := by
  have hPow := Nat.two_pow_pos k
  rw [roundAt, Nat.mod_eq_zero_of_dvd h, if_neg (by omega), Nat.div_mul_cancel h]

theorem roundNat_mono (hp : 0 < p) (h : n ≤ m) : roundNat p n ≤ roundNat p m := by
  have hLog : n.log2 ≤ m.log2 := by
    rw [Nat.log2_eq_log_two, Nat.log2_eq_log_two]
    exact Nat.log_mono_right h
  rw [roundNat, roundNat]
  obtain hEq | hLess : dropped p n = dropped p m ∨ dropped p n < dropped p m := by
    simp only [dropped]
    omega
  · rw [hEq]
    exact roundAt_mono _ h
  · -- A power of two stands between the two numbers.
    have hBetween : n.log2 + 1 ≤ m.log2 ∧ dropped p n ≤ n.log2 + 1 ∧ dropped p m ≤ m.log2 := by
      simp only [dropped] at hLess ⊢
      omega
    obtain ⟨hPower, hLow, hHigh⟩ := hBetween
    have hm : m ≠ 0 := by
      rintro rfl
      rw [Nat.log2_zero] at hPower
      omega
    calc
      roundAt (dropped p n) n ≤ 2 ^ (n.log2 + 1) := roundAt_le_pow hLow Nat.lt_log2_self
      _ ≤ 2 ^ m.log2 := Nat.pow_le_pow_right Nat.two_pos hPower
      _ ≤ roundAt (dropped p m) m := pow_le_roundAt hHigh (Nat.log2_self_le hm)

theorem roundNat_mul_pow (h : m < 2 ^ p) (k : Nat) : roundNat p (m * 2 ^ k) = m * 2 ^ k := by
  rw [roundNat]
  apply roundAt_of_dvd
  by_cases hm : m = 0
  · rw [hm, Nat.zero_mul]
    exact Nat.dvd_zero _
  · have hPow := Nat.two_pow_pos k
    have hLess : m * 2 ^ k < 2 ^ (p + k) := by
      rw [Nat.pow_add]
      exact Nat.mul_lt_mul_of_pos_right h hPow
    have hLog : (m * 2 ^ k).log2 < p + k := (Nat.log2_lt (Nat.mul_ne_zero hm (Nat.ne_of_gt hPow))).mpr hLess
    have hDropped : dropped p (m * 2 ^ k) ≤ k := by
      rw [dropped]
      omega
    exact Nat.dvd_trans (Nat.pow_dvd_pow 2 hDropped) (Nat.dvd_mul_left _ m)

theorem roundInt_of_isFloat {n : Int} (h : IsFloat p n) : roundInt p n = n := by
  obtain ⟨m, k, hm, rfl⟩ := h
  have hAbs : (m * 2 ^ k).natAbs = m.natAbs * 2 ^ k := by rw [Int.natAbs_mul, Int.natAbs_pow]; rfl
  rw [roundInt, hAbs, roundNat_mul_pow hm, ← hAbs]
  exact Int.sign_mul_natAbs _

theorem roundInt_natCast (p n : Nat) : roundInt p n = roundNat p n := by
  rw [roundInt, Int.natAbs_natCast]
  by_cases hn : n = 0
  · rw [hn, roundNat, roundAt_of_dvd (Nat.dvd_zero _)]
    rfl
  · rw [Int.sign_natCast_of_ne_zero hn, Int.one_mul]

theorem roundInt_neg (p : Nat) (n : Int) : roundInt p (-n) = -roundInt p n := by
  rw [roundInt, roundInt, Int.sign_neg, Int.natAbs_neg, Int.neg_mul]

theorem roundInt_mono (hp : 0 < p) {n m : Int} (h : n ≤ m) : roundInt p n ≤ roundInt p m := by
  obtain ⟨a, rfl | rfl⟩ := n.eq_nat_or_neg
  · obtain ⟨b, rfl⟩ := Int.eq_ofNat_of_zero_le (Int.le_trans (Int.natCast_nonneg a) h)
    rw [roundInt_natCast, roundInt_natCast]
    exact Int.ofNat_le.mpr (roundNat_mono hp (Int.ofNat_le.mp h))
  · obtain ⟨b, rfl | rfl⟩ := m.eq_nat_or_neg
    · rw [roundInt_neg, roundInt_natCast, roundInt_natCast]
      omega
    · rw [roundInt_neg, roundInt_neg, roundInt_natCast, roundInt_natCast]
      have hMono := roundNat_mono (p := p) (n := b) (m := a) hp (by omega)
      omega

/-- Rounding does not take a number over a float. -/
theorem roundInt_le (hp : 0 < p) {n x : Int} (hx : IsFloat p x) (h : n ≤ x) : roundInt p n ≤ x := by
  rw [← roundInt_of_isFloat hx]
  exact roundInt_mono hp h

theorem le_roundInt (hp : 0 < p) {n x : Int} (hx : IsFloat p x) (h : x ≤ n) : x ≤ roundInt p n := by
  rw [← roundInt_of_isFloat hx]
  exact roundInt_mono hp h

theorem IsFloat.mono {q : Nat} {n : Int} (h : IsFloat p n) (hpq : p ≤ q) : IsFloat q n := by
  obtain ⟨m, k, hm, rfl⟩ := h
  exact ⟨m, k, Nat.lt_of_lt_of_le hm (Nat.pow_le_pow_right Nat.two_pos hpq), rfl⟩

end Libdap.Rounding
