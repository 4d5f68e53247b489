import Mathlib.Data.Int.Basic
import Mathlib.Tactic.Linarith

/-! # The machine's `int` and `unsigned int`

Arithmetic on a 32 bit object is exact arithmetic followed by the reduction of the object's
type: `int32` for a signed result, `uint32` for an unsigned one.
-/

namespace Libdap.Core
set_option autoImplicit false

def INT_MAX : Int := 2147483647

def UINT_MAX : Nat := 4294967295

def int32 (n : Int) : Int := (n + 2147483648) % 4294967296 - 2147483648

def uint32 (n : Int) : Nat := (n % 4294967296).toNat

/-- What an `int` can be. -/
def InInt (n : Int) : Prop := -2147483648 ≤ n ∧ n ≤ INT_MAX

theorem int32_of_bounds {n : Int} (hLow : -2147483648 ≤ n) (hHigh : n ≤ INT_MAX) : int32 n = n := by
  simp only [INT_MAX] at hHigh
  simp only [int32]
  omega

theorem int32_bounds (n : Int) : -2147483648 ≤ int32 n ∧ int32 n ≤ INT_MAX := by
  simp only [int32, INT_MAX]
  omega

theorem int32_inInt (n : Int) : InInt (int32 n) := int32_bounds n

theorem int32_le {n : Int} (h : -2147483648 ≤ n) : int32 n ≤ n := by
  simp only [int32]
  omega

theorem uint32_of_bounds {n : Int} (hLow : 0 ≤ n) (hHigh : n < 4294967296) : (uint32 n : Int) = n := by
  simp only [uint32]
  omega

theorem uint32_natCast (n : Nat) : uint32 (n : Int) = n % 4294967296 := by
  simp only [uint32]
  omega

end Libdap.Core
