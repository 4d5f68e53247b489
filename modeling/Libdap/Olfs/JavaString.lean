import Libdap.Constraint.Word
import Libdap.Olfs.BESManager

/-! # Java's strings

The methods of `String` that look for something in a text or take a part of it.
-/

namespace Libdap.Olfs
open Constraint
set_option autoImplicit false

/-- The last place at which a text begins, or -1. -/
def lastIndexOf (str : Word) : Word → Int
  | [] => if str = [] then 0 else -1
  | c :: cs =>
    let i := lastIndexOf str cs
    if 0 ≤ i then i + 1 else if str.isPrefixOf (c :: cs) then 0 else -1

attribute [local grind =] lastIndexOf

def substring (s : Word) (start stop : Int) : Except JavaException Word :=
  if 0 ≤ start ∧ start ≤ stop ∧ stop ≤ s.length then .ok ((s.take stop.toNat).drop start.toNat)
  else .error .indexOutOfBounds

/-- The first place of a character from a place on. -/
def indexOf (s : Word) (c : Char) (start : Nat) : Option Nat :=
  ((s.drop start).findIdx? (· = c)).map (start + ·)

/-- `split` at a character: without the empty texts at the end, and whole where the character is not found. -/
def split (c : Char) (s : Word) : List Word :=
  if c ∈ s then ((s.splitOnP (· = c)).reverse.dropWhile List.isEmpty).reverse else [s]

def equalsIgnoreCase (s str : Word) : Bool := s.map Char.toLower = str.map Char.toLower

def trim (s : Word) : Word := ((s.dropWhile (· ≤ ' ')).reverse.dropWhile (· ≤ ' ')).reverse

/-! ## Places -/

section
variable {s str before behind : Word} {c : Char}

theorem lastIndexOf_short (h : s.length < str.length) : lastIndexOf str s = -1 := by
  induction s with
  | nil =>
    cases str with
    | nil => cases h
    | cons => rfl
  | cons d s ih =>
    have hNot : ¬str.isPrefixOf (d :: s) = true := fun hPrefix =>
      absurd (List.isPrefixOf_iff_prefix.mp hPrefix).length_le (Nat.not_le.mpr h)
    rw [lastIndexOf, ih (Nat.lt_of_succ_lt h)]
    rw [if_neg (by decide), if_neg hNot]

/-- A text at the end of another. -/
theorem lastIndexOf_end (before str : Word) : lastIndexOf str (before ++ str) = before.length := by
  induction before with
  | nil =>
    cases str with
    | nil => rfl
    | cons c cs =>
      rw [List.nil_append, lastIndexOf, lastIndexOf_short (Nat.lt_succ_self _)]
      rw [if_neg (by decide), if_pos (List.isPrefixOf_iff_prefix.mpr (List.prefix_refl _))]
      rfl
  | cons d before ih =>
    rw [List.cons_append, lastIndexOf, ih]
    rw [if_pos (Int.natCast_nonneg _), List.length_cons, Int.natCast_succ]

theorem lastIndexOf_none (h : c ∉ s) : lastIndexOf [c] s = -1 := by
  induction s with
  | nil => rfl
  | cons d s ih =>
    rw [List.mem_cons, not_or] at h
    rw [lastIndexOf, ih h.2]
    rw [if_neg (by decide), if_neg]
    simpa [List.isPrefixOf] using h.1

theorem lastIndexOf_of_last (h : c ∉ behind) : lastIndexOf [c] (before ++ c :: behind) = before.length := by
  induction before with
  | nil =>
    rw [List.nil_append, lastIndexOf, lastIndexOf_none h]
    rw [if_neg (by decide), if_pos (by simp [List.isPrefixOf])]
    rfl
  | cons d before ih =>
    rw [List.cons_append, lastIndexOf, ih]
    rw [if_pos (Int.natCast_nonneg _), List.length_cons, Int.natCast_succ]

theorem exists_last (h : c ∈ s) : ∃ before behind, s = before ++ c :: behind ∧ c ∉ behind := by
  obtain ⟨u, v, hSplit, hNot⟩ := List.eq_append_cons_of_mem (List.mem_reverse.mpr h)
  refine ⟨v.reverse, u.reverse, ?_, fun hMem => hNot (List.mem_reverse.mp hMem)⟩
  rw [← List.reverse_reverse s, hSplit, List.reverse_append, List.reverse_cons, List.append_assoc]
  rfl

theorem lastIndexOf_lt (c : Char) (s : Word) : lastIndexOf [c] s < s.length := by
  by_cases h : c ∈ s
  · obtain ⟨before, behind, rfl, hNot⟩ := exists_last h
    rw [lastIndexOf_of_last hNot, List.length_append, List.length_cons]
    omega
  · rw [lastIndexOf_none h]
    omega

theorem lastIndexOf_before (h : c ∉ behind) : lastIndexOf [c] (before ++ behind) = lastIndexOf [c] before := by
  by_cases hMem : c ∈ before
  · obtain ⟨u, v, rfl, hNot⟩ := exists_last hMem
    rw [List.append_assoc, List.cons_append, lastIndexOf_of_last (List.not_mem_append hNot h), lastIndexOf_of_last hNot]
  · rw [lastIndexOf_none hMem, lastIndexOf_none (List.not_mem_append hMem h)]

theorem substring_eq {u v w : Word} {start stop : Int} (h : s = u ++ (v ++ w)) (hStart : start = u.length)
    (hStop : stop = u.length + v.length) : substring s start stop = .ok v := by
  subst h hStart hStop
  rw [substring, if_pos]
  · rw [← Int.natCast_add, Int.toNat_natCast, Int.toNat_natCast, ← List.append_assoc, ← List.length_append,
      List.take_left, List.drop_left]
  · simp only [List.length_append]
    omega

theorem indexOf_behind {u v w : Word} {start : Nat} (hText : s = u ++ (v ++ c :: w)) (hStart : start = u.length)
    (h : c ∉ v) : indexOf s c start = some (u.length + v.length) := by
  subst hText hStart
  have hFind : (v ++ c :: w).findIdx? (· = c) = some v.length := by
    rw [List.findIdx?_append, List.findIdx?_eq_none_iff.mpr, List.findIdx?_cons]
    · simp
    · intro d hd
      simpa using fun hSame : d = c => h (hSame ▸ hd)
  rw [indexOf, List.drop_left, hFind]
  rfl

end

end Libdap.Olfs
